import WaluOs.Loops
import WaluOs.Pic8259

/-!
# The interrupt controllers

`pic.c` reprograms the pair of controllers and masks their lines one by one. The code
sees them through four ports only, and reads nothing but masks; so what it leaves behind
is a matter of what each controller makes of the words (`Pic8259`).

`kernel_main` remaps them, masks all lines and opens three: the timer, the keyboard and
the cascade. Whatever state they were in before, afterwards they are initialized and
nothing else is open (`kernelPics_spec`). In general a line is masked exactly when the
last call for it says so (`maskRun_masked`).
-/

namespace WaluOs

open Loops Pic8259

/-! ## The code -/

/-- `PIC1_COMMAND` -/
abbrev pic1Command : ℕ := 0x20
/-- `PIC1_DATA` -/
abbrev pic1Data : ℕ := 0x21
/-- `PIC2_COMMAND` -/
abbrev pic2Command : ℕ := 0xA0
/-- `PIC2_DATA` -/
abbrev pic2Data : ℕ := 0xA1
/-- `PIC_EOI` -/
abbrev picEoi : BitVec 8 := 0x20#8
/-- `ICW1_INIT` -/
abbrev icw1Init : BitVec 8 := 0x10#8
/-- `ICW1_ICW4` -/
abbrev icw1Icw4 : BitVec 8 := 0x01#8
/-- `ICW4_8086` -/
abbrev icw48086 : BitVec 8 := 0x01#8

/-- `outb`, as the controllers see it. -/
def outb (p : Pair) (port : ℕ) (value : BitVec 8) : Pair :=
  if port = pic1Command then { p with master := p.master.command value }
  else if port = pic1Data then { p with master := p.master.data value }
  else if port = pic2Command then { p with slave := p.slave.command value }
  else if port = pic2Data then { p with slave := p.slave.data value }
  else p

/-- `inb` of the two mask ports; the code reads no other port of the controllers. -/
def inb (p : Pair) (port : ℕ) : BitVec 8 :=
  if port = pic1Data then p.master.imr else p.slave.imr

/-- `io_wait` -/
def ioWait (p : Pair) : Pair := outb p 0x80 0#8

/-- `pic_remap` -/
def picRemap (p : Pair) (offset1 offset2 : BitVec 8) : Pair :=
  let mask1 := inb p pic1Data
  let mask2 := inb p pic2Data
  let p := ioWait (outb p pic1Command (icw1Init ||| icw1Icw4))
  let p := ioWait (outb p pic2Command (icw1Init ||| icw1Icw4))
  let p := ioWait (outb p pic1Data offset1)
  let p := ioWait (outb p pic2Data offset2)
  let p := ioWait (outb p pic1Data 4#8)
  let p := ioWait (outb p pic2Data 2#8)
  let p := ioWait (outb p pic1Data icw48086)
  let p := ioWait (outb p pic2Data icw48086)
  let p := outb p pic1Data mask1
  outb p pic2Data mask2

/-- The port `pic_set_mask` and `pic_clear_mask` choose for a line. -/
def maskPort (irqLine : ℕ) : ℕ := if irqLine < 8 then pic1Data else pic2Data

/-- The line within its controller. -/
def chipLine (irqLine : ℕ) : ℕ := if irqLine ≥ 8 then irqLine - 8 else irqLine

/-- `pic_set_mask`; `1U << irq_line` is cut to a byte. (The shift is defined for lines
below 40.) -/
def picSetMask (p : Pair) (irqLine : ℕ) : Pair :=
  let value := inb p (maskPort irqLine) ||| 1#8 <<< chipLine irqLine
  outb p (maskPort irqLine) value

/-- `pic_clear_mask` -/
def picClearMask (p : Pair) (irqLine : ℕ) : Pair :=
  let value := inb p (maskPort irqLine) &&& ~~~(1#8 <<< chipLine irqLine)
  outb p (maskPort irqLine) value

/-- `pic_send_eoi` -/
def picSendEoi (p : Pair) (irqLine : ℕ) : Pair :=
  let p := if irqLine ≥ 8 then outb p pic2Command picEoi else p
  outb p pic1Command picEoi

/-- The part of `kernel_main` that programs the controllers: they are initialized with the vectors
behind the exceptions, all lines are masked, and the timer, the keyboard and the cascade opened.
-/
def kernelPics (p : Pair) : Pair :=
  let p := picRemap p 0x20#8 0x28#8
  let p := forRange 0 16 picSetMask p
  picClearMask (picClearMask (picClearMask p 0) 1) 2

/-! ## Remapping -/

/-- A controller after the four words of an initialization, and its mask again. -/
theorem data_icws (c : Chip) (offset cascade mask : BitVec 8) :
    ((((c.command (icw1Init ||| icw1Icw4)).data offset).data cascade).data icw48086).data mask =
      { c with
        irr := 0#8
        imr := mask
        base := offset
        cascade := cascade
        mode := icw48086
        single := false
        needsIcw4 := true
        stage := .ready } := by
  rw [Chip.command, if_pos (by decide)]
  rfl

/-- **Remapping** initializes both controllers, from any state, and keeps their masks
and what is in service. -/
theorem picRemap_eq (p : Pair) (offset1 offset2 : BitVec 8) :
    picRemap p offset1 offset2 =
      ⟨{ p.master with
          irr := 0#8, base := offset1, cascade := 4#8, mode := icw48086, single := false
          needsIcw4 := true, stage := .ready },
        { p.slave with
          irr := 0#8, base := offset2, cascade := 2#8, mode := icw48086, single := false
          needsIcw4 := true, stage := .ready }⟩ := by
  have hmaster := data_icws p.master offset1 4#8 p.master.imr
  have hslave := data_icws p.slave offset2 2#8 p.slave.imr
  exact congrArg₂ Pair.mk hmaster hslave

/-! ## Masks -/

/-- The line is masked. The lines are counted through both controllers, from 8 on they are those
of the slave. -/
def Masked (p : Pair) (line : ℕ) : Bool :=
  if line < 8 then p.master.imr.getLsbD line else p.slave.imr.getLsbD (line - 8)

/-- Both controllers take words to their data ports as masks. In the middle of an initialization
`pic_set_mask` would write to another register. -/
def BothReady (p : Pair) : Prop := p.master.stage = .ready ∧ p.slave.stage = .ready

/-- A call that masks (or opens) one line. The code has one function for each, and they differ in
one bit only. -/
inductive MaskOp : Type where
  /-- `pic_set_mask` -/
  | set : ℕ → MaskOp
  /-- `pic_clear_mask` -/
  | clear : ℕ → MaskOp
  deriving DecidableEq, Repr

/-- The line of a call, counted through both controllers. -/
def MaskOp.line : MaskOp → ℕ
  | .set line => line
  | .clear line => line

/-- Does it mask the line? -/
def MaskOp.masks : MaskOp → Bool
  | .set _ => true
  | .clear _ => false

/-- One call. -/
def maskStep (p : Pair) : MaskOp → Pair
  | .set line => picSetMask p line
  | .clear line => picClearMask p line

/-- Everything but the masks stays: requests, lines in service, and what the initialization has
said. With the masks themselves this is all that the calls can do. -/
structure SameButMasks (p p' : Pair) : Prop where
  /-- the master -/
  master : p'.master = { p.master with imr := p'.master.imr }
  /-- the slave -/
  slave : p'.slave = { p.slave with imr := p'.slave.imr }

theorem SameButMasks.refl (p : Pair) : SameButMasks p p := ⟨rfl, rfl⟩

theorem SameButMasks.trans {p₁ p₂ p₃ : Pair} (h₁ : SameButMasks p₁ p₂) (h₂ : SameButMasks p₂ p₃) :
    SameButMasks p₁ p₃ := by
  refine ⟨h₂.master.trans ?_, h₂.slave.trans ?_⟩
  · rw [h₁.master]
  · rw [h₁.slave]

theorem SameButMasks.ready {p p' : Pair} (h : SameButMasks p p') (hp : BothReady p) :
    BothReady p' := by
  rw [BothReady, h.master, h.slave]
  exact hp

/-- A word to a mask port. -/
theorem outb_maskPort {p : Pair} (h : BothReady p) (irqLine : ℕ) (value : BitVec 8) :
    outb p (maskPort irqLine) value =
      if irqLine < 8 then ⟨{ p.master with imr := value }, p.slave⟩
      else ⟨p.master, { p.slave with imr := value }⟩ := by
  rw [maskPort]
  split_ifs
  · exact congrArg (Pair.mk · p.slave) (Chip.data_ready h.1 value)
  · exact congrArg (Pair.mk p.master) (Chip.data_ready h.2 value)

/-- A call changes masks only, for whatever line. -/
theorem maskStep_same {p : Pair} (h : BothReady p) (op : MaskOp) :
    SameButMasks p (maskStep p op) := by
  have hout : ∀ irqLine value, SameButMasks p (outb p (maskPort irqLine) value) := by
    intro irqLine value
    rw [outb_maskPort h]
    split_ifs <;> exact ⟨rfl, rfl⟩
  cases op with
  | set irqLine => exact hout irqLine _
  | clear irqLine => exact hout irqLine _

/-- A mask with one bit written is what its line, and no other, sees. -/
theorem outb_mask_spec {p : Pair} (h : BothReady p) {irqLine : ℕ} (hline : irqLine < 16)
    {value : BitVec 8} {b : Bool}
    (hvalue : ∀ i, value.getLsbD i =
      if i = chipLine irqLine then b else (inb p (maskPort irqLine)).getLsbD i) :
    ∀ line < 16, Masked (outb p (maskPort irqLine) value) line =
      if line = irqLine then b else Masked p line := by
  intro line _
  rw [outb_maskPort h]
  by_cases hlow : irqLine < 8
  · have hport : maskPort irqLine = pic1Data := if_pos hlow
    have hchip : chipLine irqLine = irqLine := if_neg (by omega)
    rw [hport, hchip] at hvalue
    rw [if_pos hlow]
    simp only [Masked]
    by_cases hl : line < 8
    · rw [if_pos hl, if_pos hl, hvalue]
      rfl
    · rw [if_neg hl, if_neg hl, if_neg (by omega)]
  · have hport : maskPort irqLine = pic2Data := if_neg hlow
    have hchip : chipLine irqLine = irqLine - 8 := if_pos (by omega)
    rw [hport, hchip] at hvalue
    rw [if_neg hlow]
    simp only [Masked]
    by_cases hl : line < 8
    · rw [if_pos hl, if_pos hl, if_neg (by omega)]
    · rw [if_neg hl, if_neg hl, hvalue]
      by_cases he : line = irqLine
      · rw [if_pos he, if_pos (by omega)]
      · rw [if_neg he, if_neg (by omega)]
        rfl

theorem chipLine_lt {irqLine : ℕ} (h : irqLine < 16) : chipLine irqLine < 8 := by
  rw [chipLine]
  split_ifs <;> omega

/-- What a call makes of the masks. -/
theorem maskStep_masked {p : Pair} (h : BothReady p) {op : MaskOp} (hop : op.line < 16) :
    ∀ line < 16, Masked (maskStep p op) line =
      if line = op.line then op.masks else Masked p line := by
  cases op with
  | set irqLine =>
    have hchip : chipLine irqLine < 8 := chipLine_lt hop
    refine outb_mask_spec h hop fun i => ?_
    change (_ ||| bit (chipLine irqLine)).getLsbD i = if i = chipLine irqLine then true else _
    rw [getLsbD_or_bit hchip]
    by_cases hi : i = chipLine irqLine
    · rw [if_pos hi, decide_eq_true hi, Bool.or_true]
    · rw [if_neg hi, decide_eq_false hi, Bool.or_false]
      rfl
  | clear irqLine =>
    have hchip : chipLine irqLine < 8 := chipLine_lt hop
    refine outb_mask_spec h hop fun i => ?_
    change (_ &&& ~~~bit (chipLine irqLine)).getLsbD i = if i = chipLine irqLine then false else _
    rw [getLsbD_and_not_bit hchip]
    by_cases hi : i = chipLine irqLine
    · rw [if_pos hi, decide_eq_true hi, Bool.not_true, Bool.and_false]
    · rw [if_neg hi, decide_eq_false hi, Bool.not_false, Bool.and_true]
      rfl

/-! ## Runs -/

/-- Calls, one after the other. Each of them reads the mask of one controller and writes it back
with one bit changed. -/
def maskRun (p : Pair) (ops : List MaskOp) : Pair := ops.foldl maskStep p

/-- The last call for a line, if there was one. After a run it alone decides whether the line is
masked; without one the line is as it was. -/
def lastCall (line : ℕ) (ops : List MaskOp) : Option MaskOp :=
  ops.reverse.find? fun op => op.line = line

theorem lastCall_concat (line : ℕ) (ops : List MaskOp) (op : MaskOp) :
    lastCall line (ops ++ [op]) = if op.line = line then some op else lastCall line ops := by
  rw [lastCall, List.reverse_append, List.reverse_singleton, List.singleton_append,
    List.find?_cons]
  by_cases h : op.line = line
  · rw [if_pos h, decide_eq_true h]
  · rw [if_neg h, decide_eq_false h]
    rfl

/-- **A line is masked exactly when the last call for it masked it**, or, if there was no
call for it, when it was masked before. -/
theorem maskRun_masked (p : Pair) (h : BothReady p) (ops : List MaskOp)
    (hops : ∀ op ∈ ops, op.line < 16) :
    SameButMasks p (maskRun p ops) ∧ ∀ line < 16, Masked (maskRun p ops) line =
      (lastCall line ops).elim (Masked p line) MaskOp.masks := by
  induction ops using List.reverseRecOn with
  | nil => exact ⟨.refl p, fun _ _ => rfl⟩
  | append_singleton ops op ih =>
    obtain ⟨hsame, hmasked⟩ := ih fun o ho => hops o (List.mem_append_left _ ho)
    have hsame' := maskStep_same (hsame.ready h) op
    have hstep := maskStep_masked (hsame.ready h)
      (hops op (List.mem_append_right _ (List.mem_singleton_self op)))
    have hrun : maskRun p (ops ++ [op]) = maskStep (maskRun p ops) op := List.foldl_concat ..
    rw [hrun]
    refine ⟨hsame.trans hsame', fun line hline => ?_⟩
    rw [hstep line hline, lastCall_concat, hmasked line hline]
    by_cases he : line = op.line
    · rw [if_pos he, if_pos he.symm]
      rfl
    · rw [if_neg he, if_neg (Ne.symm he)]

/-- The keyboard's line is masked, opened, and masked again. -/
theorem maskRun_masked_keyboard :
    Masked (maskRun ⟨⟨0, 0, 0, 0, 0, 0, false, false, .ready⟩,
      ⟨0, 0, 0, 0, 0, 0, false, false, .ready⟩⟩ [.set 1, .clear 1, .clear 9, .set 1]) 1 = true :=
  (maskRun_masked _ ⟨rfl, rfl⟩ [.set 1, .clear 1, .clear 9, .set 1] (by decide)).2 1 (by decide)

/-! ## At boot -/

/-- What `kernel_main` calls after remapping. -/
def bootMasks : List MaskOp := (List.range 16).map .set ++ [.clear 0, .clear 1, .clear 2]

theorem kernelPics_eq (p : Pair) : kernelPics p = maskRun (picRemap p 0x20#8 0x28#8) bootMasks := by
  have hloop : forRange 0 16 picSetMask (picRemap p 0x20#8 0x28#8) =
      maskRun (picRemap p 0x20#8 0x28#8) ((List.range 16).map .set) := by
    rw [maskRun, List.foldl_map, forRange, ← List.range_eq_range']
    rfl
  rw [bootMasks, maskRun, List.foldl_append]
  change _ = maskRun (maskRun _ _) _
  rw [← hloop]
  rfl

/-- The pair is initialized as `kernel_main` wants it, and lets through the timer, the
keyboard and the cascade only. The vectors are behind those of the exceptions, and every
interrupt has to be ended by a command. -/
structure KernelPics (p : Pair) : Prop where
  /-- both are initialized -/
  ready : BothReady p
  /-- both know their place -/
  cascaded : p.Cascaded
  /-- both give vectors, and end nothing by themselves -/
  mode : p.master.mode = icw48086 ∧ p.slave.mode = icw48086
  /-- lines 0 to 7 -/
  base1 : p.master.base = 0x20#8
  /-- lines 8 to 15 -/
  base2 : p.slave.base = 0x28#8
  /-- what is open -/
  masked : ∀ line < 16, Masked p line = decide (2 < line)

/-- **The controllers after boot**, from any state they may have been in. An initialization that
was left unfinished does no harm, since the first word of the next one starts it over. -/
theorem kernelPics_spec (p : Pair) :
    KernelPics (kernelPics p) ∧ (kernelPics p).master.isr = p.master.isr ∧
      (kernelPics p).slave.isr = p.slave.isr ∧ (kernelPics p).master.irr = 0#8 ∧
      (kernelPics p).slave.irr = 0#8 := by
  have hremap := picRemap_eq p 0x20#8 0x28#8
  have hready : BothReady (picRemap p 0x20#8 0x28#8) := by
    rw [hremap]
    exact ⟨rfl, rfl⟩
  obtain ⟨hsame, hmasked⟩ := maskRun_masked _ hready bootMasks (by decide)
  have hlast : ∀ line < 16,
      (lastCall line bootMasks).map MaskOp.masks = some (decide (2 < line)) := by
    decide
  rw [kernelPics_eq]
  refine ⟨⟨hsame.ready hready, ?_, ?_, ?_, ?_, fun line hline => ?_⟩, ?_, ?_, ?_, ?_⟩
  · rw [Pair.Cascaded, hsame.master, hsame.slave, hremap]
    exact ⟨rfl, rfl⟩
  · rw [hsame.master, hsame.slave, hremap]
    exact ⟨rfl, rfl⟩
  · rw [hsame.master, hremap]
  · rw [hsame.slave, hremap]
  · rw [hmasked line hline]
    have hcall := hlast line hline
    cases hl : lastCall line bootMasks with
    | none =>
      rw [hl] at hcall
      cases hcall
    | some op =>
      rw [hl] at hcall
      exact Option.some.inj hcall
  · rw [hsame.master, hremap]
  · rw [hsame.slave, hremap]
  · rw [hsame.master, hremap]
  · rw [hsame.slave, hremap]

end WaluOs
