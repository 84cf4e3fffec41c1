import WaluOs.Idt
import WaluOs.Pic
import WaluOs.Shell

/-!
# Interrupts

Devices request lines whenever they like, and the processor accepts what the controllers
offer, whenever interrupts are enabled. The handlers are interrupt gates: they are not
interrupted themselves, so a handler is one step. Each of them tells the controllers that
it is done.

After boot this comes down to two flags, one for the timer and one for the keyboard
(`Lines`): whatever happens on the other lines, a tick or a scancode is handled exactly
once for each time it was found requested, and nothing else is ever entered
(`irqRun_lines`). That rests on the masks. `irq_default` ends an interrupt at the master
only, and a line of the slave that it serves stays in service: it blocks itself and the
less urgent lines of the slave for good (`irqDefault_blocks`).
-/

namespace WaluOs

open Pic8259

/-! ## The code -/

/-- What interrupts work on. Only their handlers run here, so nothing takes bytes from the queues
of the keyboard; the loop that does is another model. -/
structure Machine : Type where
  /-- the controllers -/
  pics : Pair
  /-- `g_ticks` -/
  gTicks : UInt64
  /-- the keyboard driver -/
  kbd : Kbd
  /-- an exception was taken -/
  halted : Bool
  /-- trace: the vectors, oldest first -/
  taken : List ℕ

/-- `pit_on_tick` -/
def pitOnTick (m : Machine) : Machine := { m with gTicks := m.gTicks + 1 }

/-- The handlers; port 0x60 reads as `scancode`. -/
def runHandler (m : Machine) (handler : Handler) (scancode : UInt8) : Machine :=
  match handler with
  | .isr _ => { m with halted := true }
  | .irqTimer =>
    let m := pitOnTick m
    { m with pics := picSendEoi m.pics 0 }
  | .irqKeyboard =>
    let m := { m with kbd := keyboardOnIrq m.kbd scancode }
    { m with pics := picSendEoi m.pics 1 }
  | .irqDefault => { m with pics := picSendEoi m.pics 7 }

/-- The processor takes a vector. -/
def takeVector (m : Machine) (vector : ℕ) (scancode : UInt8) : Machine :=
  runHandler { m with taken := m.taken ++ [vector] } (handlerOf vector) scancode

/-- What happens outside the program. A run is any list of them, so that nothing is assumed about
when devices ask, or when interrupts are enabled. -/
inductive IrqEvent : Type where
  /-- a device requests a line -/
  | raise : ℕ → IrqEvent
  /-- the processor accepts an interrupt, with a byte in port 0x60 -/
  | accept : UInt8 → IrqEvent
  /-- it was interrupted, but the request is gone -/
  | spurious : UInt8 → IrqEvent
  deriving DecidableEq, Repr

/-- One event. A handler runs to its end in it, since the gates close interrupts; and an exception
halts the processor, so that nothing comes behind it. -/
def irqStep (m : Machine) (event : IrqEvent) : Machine :=
  if m.halted then m
  else
    match event with
    | .raise line => { m with pics := m.pics.raise line }
    | .accept scancode =>
      match m.pics.accept with
      | none => m
      | some (pics, vector) => takeVector { m with pics := pics } vector scancode
    | .spurious scancode =>
      match m.pics.spurious with
      | none => m
      | some vector => takeVector m vector scancode

/-- A run: one event after the other. -/
def irqRun (m : Machine) (events : List IrqEvent) : Machine := events.foldl irqStep m

/-! ## Two flags -/

/-- The timer and the keyboard, and what became of their interrupts. This is what the controllers
are for as long as the kernel has only these two lines open, with no register in it. -/
structure Lines : Type where
  /-- a tick waits -/
  timer : Bool
  /-- a scancode waits -/
  key : Bool
  /-- ticks so far -/
  ticks : ℕ
  /-- scancodes so far -/
  codes : List UInt8

/-- The two lines on their own; the timer comes first. -/
def Lines.step (l : Lines) : IrqEvent → Lines
  | .raise line =>
    { l with timer := l.timer || decide (line = 0), key := l.key || decide (line = 1) }
  | .accept scancode =>
    if l.timer then { l with timer := false, ticks := l.ticks + 1 }
    else if l.key then { l with key := false, codes := l.codes ++ [scancode] }
    else l
  | .spurious _ => l

/-- The two lines in a run, from nothing requested on. -/
def linesRun (events : List IrqEvent) : Lines := events.foldl Lines.step ⟨false, false, 0, []⟩

/-! ## The controllers after boot -/

/-- Nothing is in service. In between interrupts it is so, since each handler ends its own. -/
def Idle (p : Pair) : Prop := p.master.isr = 0#8 ∧ p.slave.isr = 0#8

section

variable {p : Pair}

/-- The mode word of `pic_remap`: vectors, and no automatic end. -/
theorem mode_8086 {c : Chip} (h : c.mode = icw48086) : c.Vectored ∧ ¬c.AutoEoi := by
  rw [Chip.Vectored, Chip.AutoEoi, h]
  decide

/-- The master's vectors. -/
theorem KernelPics.vector (h : KernelPics p) (line : ℕ) :
    p.master.vector line = some (0x20 + line) := by
  rw [Chip.vector_eq (mode_8086 h.mode.1).1, h.base1]
  rfl

/-- The masked slave asks for nothing. -/
theorem KernelPics.slave_request (h : KernelPics p) : p.slave.request = none := by
  rw [Chip.request_eq_none_iff h.ready.2]
  intro i hi hready
  have hmask := h.masked (i + 8) (by omega)
  rw [Masked, if_neg (by omega), Nat.add_sub_cancel, decide_eq_true (by omega)] at hmask
  rw [hready.2.1] at hmask
  cases hmask

/-- What the master offers: the timer before the keyboard, and no other line, since the slave is
masked and so asks for nothing. -/
theorem KernelPics.request (h : KernelPics p) (hidle : Idle p) :
    p.wired.request =
      if p.master.irr.getLsbD 0 then some 0
      else if p.master.irr.getLsbD 1 then some 1 else none := by
  have hmask : ∀ i < 8, p.master.imr.getLsbD i = decide (2 < i) := by
    intro i hi
    have hm := h.masked i (by omega)
    rwa [Masked, if_pos hi] at hm
  have hirr : p.wired.irr = p.master.irr &&& ~~~bit 2 := by
    rw [Pair.wired, h.slave_request]
    rfl
  have hready : ∀ i < 8, p.wired.Ready i ↔ p.master.irr.getLsbD i = true ∧ i < 2 := by
    intro i hi
    rw [Chip.ready_iff (show p.wired.isr = 0#8 from hidle.1), hirr,
      getLsbD_and_not_bit (by decide)]
    change _ ∧ p.master.imr.getLsbD i = false ↔ _
    rw [hmask i hi, Bool.and_eq_true, Bool.not_eq_true', decide_eq_false_iff_not,
      decide_eq_false_iff_not]
    exact ⟨fun hr => ⟨hr.1.1, by omega⟩, fun hr => ⟨⟨hr.1, by omega⟩, by omega⟩⟩
  have hstage : p.wired.stage = .ready := h.ready.1
  split_ifs with h0 h1
  · exact Chip.request_eq_some_iff.mpr ⟨hstage, by decide,
      (hready 0 (by decide)).mpr ⟨h0, by decide⟩, fun j hj => absurd hj (Nat.not_lt_zero j)⟩
  · refine Chip.request_eq_some_iff.mpr ⟨hstage, by decide,
      (hready 1 (by decide)).mpr ⟨h1, by decide⟩, fun j hj hr => ?_⟩
    obtain rfl : j = 0 := by omega
    exact h0 ((hready 0 (by decide)).mp hr).1
  · rw [Chip.request_eq_none_iff hstage]
    intro i hi hr
    obtain ⟨hset, hlt⟩ := (hready i hi).mp hr
    rcases (by omega : i = 0 ∨ i = 1) with rfl | rfl
    · exact h0 hset
    · exact h1 hset

/-- What is requested and what is in service are no part of it. -/
theorem KernelPics.lines (h : KernelPics p) (irr isr irr' isr' : BitVec 8) :
    KernelPics ⟨{ p.master with irr := irr, isr := isr },
      { p.slave with irr := irr', isr := isr' }⟩ :=
  ⟨h.ready, h.cascaded, h.mode, h.base1, h.base2, h.masked⟩

theorem KernelPics.raise (h : KernelPics p) (line : ℕ) : KernelPics (p.raise line) := by
  rw [Pair.raise]
  split_ifs
  · exact h.lines _ _ _ _
  · exact h.lines _ _ _ _

/-- The end of an interrupt whose line is a master's. -/
theorem picSendEoi_master (p : Pair) {line : ℕ} (hline : line < 8) :
    picSendEoi p line = ⟨p.master.command eoi, p.slave⟩ := by
  rw [picSendEoi, if_neg (by omega)]
  rfl

/-- What the master offers is accepted with its vector. The slave has no part in it, since line 2
is not among the two. -/
theorem KernelPics.accept (h : KernelPics p) {line : ℕ} (hline : line < 2)
    (hrequest : p.wired.request = some line) :
    p.accept = some (⟨p.master.acknowledge line, p.slave⟩, 0x20 + line) := by
  rw [Pair.accept, hrequest]
  dsimp only
  rw [if_neg (fun htwo => absurd htwo.1 (by omega)), h.vector, Option.map_some]

/-- A line is accepted and ended. -/
theorem acceptEnd_eq (h : KernelPics p) (hidle : Idle p) {i line : ℕ} (hi : i < 8)
    (hline : line < 8) :
    picSendEoi ⟨p.master.acknowledge i, p.slave⟩ line =
      ⟨{ p.master with irr := p.master.irr &&& ~~~bit i }, p.slave⟩ := by
  rw [picSendEoi_master _ hline]
  exact congrArg (Pair.mk · p.slave) (Chip.acknowledge_eoi (mode_8086 h.mode.1).2 hidle.1 hi)

end

/-! ## A run -/

/-- The vectors that may be taken: timer, keyboard, and the spurious one. -/
def ServedVector (vector : ℕ) : Prop := vector = 0x20 ∨ vector = 0x21 ∨ vector = 0x27

/-- The machine does what the two flags say. Of the requests only those of the two open lines
occur in it; the others may be there or not, the masks keep them from coming up. -/
structure Serves (kbd : Kbd) (m : Machine) (l : Lines) : Prop where
  /-- the masks stay -/
  pics : KernelPics m.pics
  /-- every interrupt was ended -/
  idle : Idle m.pics
  /-- a tick waits -/
  timer : m.pics.master.irr.getLsbD 0 = l.timer
  /-- a scancode waits -/
  key : m.pics.master.irr.getLsbD 1 = l.key
  /-- ticks -/
  ticks : m.gTicks = UInt64.ofNat l.ticks
  /-- scancodes, in order -/
  codes : m.kbd = l.codes.foldl keyboardOnIrq kbd
  /-- no exception -/
  running : m.halted = false
  /-- nothing else was entered -/
  taken : ∀ vector ∈ m.taken, ServedVector vector

section

variable {kbd : Kbd} {m : Machine} {l : Lines}

theorem Serves.not_halted (h : Serves kbd m l) : ¬m.halted = true := by
  rw [h.running]
  decide

theorem Serves.raise (h : Serves kbd m l) (line : ℕ) :
    Serves kbd (irqStep m (.raise line)) (l.step (.raise line)) := by
  rw [irqStep, if_neg h.not_halted]
  have hbit : ∀ i < 8, (m.pics.raise line).master.irr.getLsbD i =
      (m.pics.master.irr.getLsbD i || decide (line = i)) := by
    intro i hi
    rw [Pair.raise]
    split_ifs with hline
    · change (m.pics.master.irr ||| bit line).getLsbD i = _
      rw [getLsbD_or_bit hline]
      exact congrArg _ (decide_eq_decide.mpr eq_comm)
    · rw [decide_eq_false (by omega), Bool.or_false]
  have hisr : Idle (m.pics.raise line) := by
    rw [Pair.raise]
    split_ifs <;> exact h.idle
  refine ⟨h.pics.raise line, hisr, ?_, ?_, h.ticks, h.codes, h.running, h.taken⟩
  · exact (hbit 0 (by decide)).trans (congrArg (· || _) h.timer)
  · exact (hbit 1 (by decide)).trans (congrArg (· || _) h.key)

/-- The processor accepts an interrupt. Whichever of the two lines it is, its handler ends it at
the master, and nothing is in service again. -/
theorem Serves.accept (h : Serves kbd m l) (scancode : UInt8) :
    Serves kbd (irqStep m (.accept scancode)) (l.step (.accept scancode)) := by
  have hrequest := h.pics.request h.idle
  rw [h.timer, h.key] at hrequest
  have hclear : ∀ i < 8, ∀ j, (m.pics.master.irr &&& ~~~bit i).getLsbD j =
      (m.pics.master.irr.getLsbD j && !decide (j = i)) :=
    fun i hi j => getLsbD_and_not_bit hi _ j
  rw [irqStep, if_neg h.not_halted, Lines.step]
  cases htimer : l.timer with
  | true =>
    rw [htimer, if_pos rfl] at hrequest
    have haccept : m.pics.accept =
        some (⟨m.pics.master.acknowledge 0, m.pics.slave⟩, 0x20) :=
      h.pics.accept (by decide) hrequest
    rw [haccept, if_pos rfl]
    have hend := acceptEnd_eq h.pics h.idle (by decide : 0 < 8) (by decide : 0 < 8)
    have hstep : takeVector { m with pics := ⟨m.pics.master.acknowledge 0, m.pics.slave⟩ } 0x20
        scancode = { m with
          pics := ⟨{ m.pics.master with irr := m.pics.master.irr &&& ~~~bit 0 }, m.pics.slave⟩
          gTicks := m.gTicks + 1
          taken := m.taken ++ [0x20] } :=
      congrArg (fun p => ({ m with
        pics := p, gTicks := m.gTicks + 1, taken := m.taken ++ [0x20] } : Machine)) hend
    dsimp only
    rw [hstep]
    refine ⟨h.pics.lines _ _ _ _, h.idle, hclear 0 (by decide) 0 |>.trans (Bool.and_false _), ?_, ?_,
      h.codes, h.running, ?_⟩
    · exact (hclear 0 (by decide) 1).trans ((Bool.and_true _).trans h.key)
    · dsimp only
      rw [h.ticks, UInt64.ofNat_add]
      rfl
    · exact List.forall_mem_append.mpr ⟨h.taken, List.forall_mem_singleton.mpr (Or.inl rfl)⟩
  | false =>
    rw [htimer, if_neg (by decide)] at hrequest
    rw [if_neg (by decide)]
    cases hkey : l.key with
    | true =>
      rw [hkey, if_pos rfl] at hrequest
      have haccept : m.pics.accept =
          some (⟨m.pics.master.acknowledge 1, m.pics.slave⟩, 0x21) :=
        h.pics.accept (by decide) hrequest
      rw [haccept, if_pos rfl]
      have hend := acceptEnd_eq h.pics h.idle (by decide : 1 < 8) (by decide : 1 < 8)
      have hstep : takeVector { m with pics := ⟨m.pics.master.acknowledge 1, m.pics.slave⟩ } 0x21
          scancode = { m with
            pics := ⟨{ m.pics.master with irr := m.pics.master.irr &&& ~~~bit 1 }, m.pics.slave⟩
            kbd := keyboardOnIrq m.kbd scancode
            taken := m.taken ++ [0x21] } :=
        congrArg (fun p => ({ m with
          pics := p, kbd := keyboardOnIrq m.kbd scancode, taken := m.taken ++ [0x21] } : Machine))
          hend
      dsimp only
      rw [hstep]
      refine ⟨h.pics.lines _ _ _ _, h.idle, ?_,
        hclear 1 (by decide) 1 |>.trans (Bool.and_false _), h.ticks, ?_, h.running, ?_⟩
      · exact (hclear 1 (by decide) 0).trans ((Bool.and_true _).trans (h.timer.trans htimer))
      · dsimp only
        rw [List.foldl_concat, h.codes]
      · exact List.forall_mem_append.mpr
          ⟨h.taken, List.forall_mem_singleton.mpr (Or.inr (Or.inl rfl))⟩
    | false =>
      rw [hkey, if_neg (by decide)] at hrequest
      have haccept : m.pics.accept = none := by
        rw [Pair.accept, hrequest]
      rw [haccept, if_neg (by decide)]
      exact h

theorem Serves.spurious (h : Serves kbd m l) (scancode : UInt8) :
    Serves kbd (irqStep m (.spurious scancode)) (l.step (.spurious scancode)) := by
  have hvector : m.pics.spurious = some 0x27 := h.pics.vector 7
  have hend : picSendEoi m.pics 7 = m.pics := by
    rw [picSendEoi_master _ (by decide), Chip.eoi_idle h.idle.1]
  have hstep : takeVector m 0x27 scancode = { m with taken := m.taken ++ [0x27] } :=
    congrArg (fun p => ({ m with pics := p, taken := m.taken ++ [0x27] } : Machine)) hend
  rw [irqStep, if_neg h.not_halted, hvector]
  dsimp only
  rw [hstep]
  exact ⟨h.pics, h.idle, h.timer, h.key, h.ticks, h.codes, h.running,
    List.forall_mem_append.mpr ⟨h.taken, List.forall_mem_singleton.mpr (Or.inr (Or.inr rfl))⟩⟩

theorem Serves.step (h : Serves kbd m l) (event : IrqEvent) :
    Serves kbd (irqStep m event) (l.step event) := by
  cases event with
  | raise line => exact h.raise line
  | accept scancode => exact h.accept scancode
  | spurious scancode => exact h.spurious scancode

theorem Serves.run (events : List IrqEvent) :
    ∀ {m : Machine} {l : Lines}, Serves kbd m l →
      Serves kbd (irqRun m events) (events.foldl Lines.step l) := by
  induction events with
  | nil => exact fun h => h
  | cons event events ih => exact fun h => ih (h.step event)

end

/-- `kernel_main` has programmed the controllers; nothing has happened yet. What they were before
does not matter, not even an initialization that was left unfinished. -/
def machineBoot (p : Pair) (kbd : Kbd) : Machine := ⟨kernelPics p, 0, kbd, false, []⟩

/-- **Ticks and scancodes are handled exactly once, and nothing else is entered**, for
every order of requests, of accepted and of spurious interrupts, from any state of the
controllers with nothing in service. -/
theorem irqRun_lines (p : Pair) (hidle : Idle p) (kbd : Kbd) (events : List IrqEvent) :
    Serves kbd (irqRun (machineBoot p kbd) events) (linesRun events) := by
  obtain ⟨hpics, hmaster, hslave, hirr, -⟩ := kernelPics_spec p
  refine Serves.run events ⟨hpics, ⟨hmaster.trans hidle.1, hslave.trans hidle.2⟩, ?_, ?_, rfl, rfl,
    rfl, fun vector hv => absurd hv List.not_mem_nil⟩
  · exact (congrArg (BitVec.getLsbD · 0) hirr).trans rfl
  · exact (congrArg (BitVec.getLsbD · 1) hirr).trans rfl

/-- A tick and a key, requested in the other order: the tick is handled first. -/
theorem irqRun_lines_tick :
    (irqRun (machineBoot ⟨⟨0, 0, 0, 0, 0, 0, false, false, .ready⟩,
        ⟨0, 0, 0, 0, 0, 0, false, false, .icw3⟩⟩ sysZero.kbd)
      [.raise 1, .raise 5, .raise 0, .accept 0x1E]).gTicks = 1 :=
  (irqRun_lines _ ⟨rfl, rfl⟩ sysZero.kbd [.raise 1, .raise 5, .raise 0, .accept 0x1E]).ticks

/-! ## `irq_default` -/

/-- The controllers as `pic_remap(0x20, 0x28)` leaves them, with any masks. It is what stays of
`KernelPics` when lines of the slave are opened. -/
structure Remapped (p : Pair) : Prop where
  /-- both are initialized -/
  ready : BothReady p
  /-- both know their place -/
  cascaded : p.Cascaded
  /-- both give vectors, and end nothing by themselves -/
  mode : p.master.mode = icw48086 ∧ p.slave.mode = icw48086
  /-- lines 0 to 7 -/
  base1 : p.master.base = 0x20#8
  /-- lines 8 to 15 -/
  base2 : p.slave.base = 0x28#8

theorem picRemap_remapped (p : Pair) : Remapped (picRemap p 0x20#8 0x28#8) := by
  rw [picRemap_eq]
  exact ⟨⟨rfl, rfl⟩, ⟨rfl, rfl⟩, ⟨rfl, rfl⟩, rfl, rfl⟩

/-- An event, or a change of the masks. The kernel never opens a line of the slave, but
`pic_clear_mask` could, and the handler for such a line is there. -/
inductive MachineOp : Type where
  /-- an event -/
  | event : IrqEvent → MachineOp
  /-- `pic_set_mask` or `pic_clear_mask` -/
  | mask : MaskOp → MachineOp
  deriving DecidableEq, Repr

/-- One of them. -/
def machineStep (m : Machine) : MachineOp → Machine
  | .event event => irqStep m event
  | .mask op => { m with pics := maskStep m.pics op }

/-- A run of them, in any order. -/
def machineRun (m : Machine) (ops : List MachineOp) : Machine := ops.foldl machineStep m

section

variable {p : Pair} {m : Machine}

/-- What the processor gets is a line of the master, or one of the slave that nothing in
service there stops. -/
theorem Remapped.accept_cases (h : Remapped p) {p' : Pair} {vector : ℕ}
    (haccept : p.accept = some (p', vector)) :
    (∃ i < 8, vector = 0x20 + i ∧ p' = ⟨p.master.acknowledge i, p.slave⟩) ∨
      ∃ i < 8, vector = 0x28 + i ∧ p.slave.Ready i ∧ p.master.isr.getLsbD 2 = false ∧
        p' = ⟨p.master.acknowledge 2, p.slave.acknowledge i⟩ := by
  rw [Pair.accept] at haccept
  cases hrequest : p.wired.request with
  | none =>
    rw [hrequest] at haccept
    cases haccept
  | some line =>
    obtain ⟨-, hline, hready, -⟩ := Chip.request_eq_some_iff.mp hrequest
    rw [hrequest] at haccept
    dsimp only at haccept
    by_cases hslave : line = 2 ∧ p.Cascaded
    · rw [if_pos hslave] at haccept
      cases hi : p.slave.request with
      | none =>
        rw [hi] at haccept
        cases haccept
      | some i =>
        obtain ⟨-, hlt, hreadyi, -⟩ := Chip.request_eq_some_iff.mp hi
        rw [hi] at haccept
        dsimp only at haccept
        rw [Chip.vector_eq (mode_8086 h.mode.2).1, Option.map_some, h.base2] at haccept
        obtain ⟨rfl, rfl⟩ := Prod.mk.inj (Option.some.inj haccept)
        exact Or.inr ⟨i, hlt, rfl, hreadyi, hready.2.2 2 hslave.1.ge, rfl⟩
    · rw [if_neg hslave, Chip.vector_eq (mode_8086 h.mode.1).1, Option.map_some, h.base1] at haccept
      obtain ⟨rfl, rfl⟩ := Prod.mk.inj (Option.some.inj haccept)
      exact Or.inl ⟨line, hline, rfl, rfl⟩

/-- No handler but those of exceptions stops the machine, and none writes to the slave. -/
theorem takeVector_pics (m : Machine) {vector : ℕ} (hvector : 0x20 ≤ vector) (scancode : UInt8) :
    (takeVector m vector scancode).pics = ⟨m.pics.master.command eoi, m.pics.slave⟩ ∧
      (takeVector m vector scancode).halted = m.halted ∧
      (takeVector m vector scancode).taken = m.taken ++ [vector] := by
  have hend := fun line (hline : line < 8) => picSendEoi_master m.pics hline
  rw [takeVector, handlerOf, if_neg (by omega)]
  split_ifs
  · exact ⟨hend 0 (by decide), rfl, rfl⟩
  · exact ⟨hend 1 (by decide), rfl, rfl⟩
  · exact ⟨hend 7 (by decide), rfl, rfl⟩

/-- Commands and masks leave the wiring alone. -/
theorem command_eoi_keeps (c : Chip) : (c.command eoi).base = c.base ∧
    (c.command eoi).cascade = c.cascade ∧ (c.command eoi).mode = c.mode ∧
    (c.command eoi).stage = c.stage := by
  rw [Chip.command_eoi]
  cases lowest c.isr <;> exact ⟨rfl, rfl, rfl, rfl⟩

/-- What is requested and what is in service are no part of the wiring. -/
theorem Remapped.lines (h : Remapped p) (irr isr irr' isr' : BitVec 8) :
    Remapped ⟨{ p.master with irr := irr, isr := isr },
      { p.slave with irr := irr', isr := isr' }⟩ :=
  ⟨h.ready, h.cascaded, h.mode, h.base1, h.base2⟩

theorem Remapped.raise (h : Remapped p) (line : ℕ) : Remapped (p.raise line) := by
  rw [Pair.raise]
  split_ifs
  · exact h.lines _ _ _ _
  · exact h.lines _ _ _ _

theorem Remapped.sameButMasks (h : Remapped p) {p' : Pair} (hsame : SameButMasks p p') :
    Remapped p' := by
  refine ⟨hsame.ready h.ready, ?_, ?_, ?_, ?_⟩
  · rw [Pair.Cascaded, hsame.master, hsame.slave]
    exact h.cascaded
  · rw [hsame.master, hsame.slave]
    exact h.mode
  · rw [hsame.master]
    exact h.base1
  · rw [hsame.slave]
    exact h.base2

theorem Remapped.take (h : Remapped m.pics) {vector : ℕ} (hvector : 0x20 ≤ vector)
    (scancode : UInt8) : Remapped (takeVector m vector scancode).pics := by
  obtain ⟨hbase, hcascade, hmode, hstage⟩ := command_eoi_keeps m.pics.master
  rw [(takeVector_pics m hvector scancode).1]
  exact ⟨⟨hstage.trans h.ready.1, h.ready.2⟩, ⟨hcascade.trans h.cascaded.1, h.cascaded.2⟩,
    ⟨hmode.trans h.mode.1, h.mode.2⟩, hbase.trans h.base1, h.base2⟩

/-- Line `j` of the slave is in service, and `served` was taken since. Nothing ends it there,
since `irq_default` tells the master only, so this holds from then on. -/
structure Blocked (j : ℕ) (m : Machine) (served : List ℕ) : Prop where
  /-- the wiring -/
  remapped : Remapped m.pics
  /-- in service -/
  inService : m.pics.slave.isr.getLsbD j = true
  /-- only more urgent lines of the slave -/
  served : ∀ vector ∈ served, vector < 0x28 + j

/-- A vector is taken. -/
theorem Blocked.take {j : ℕ} {served : List ℕ} (h : Blocked j m served) {vector : ℕ}
    (hlow : 0x20 ≤ vector) (hhigh : vector < 0x28 + j) (scancode : UInt8) :
    Blocked j (takeVector m vector scancode) (served ++ [vector]) := by
  refine ⟨h.remapped.take hlow scancode, ?_, fun v hv => ?_⟩
  · rw [(takeVector_pics m hlow scancode).1]
    exact h.inService
  · rcases List.mem_append.mp hv with hv | hv
    · exact h.served v hv
    · exact (List.mem_singleton.mp hv).trans_lt hhigh

theorem Blocked.accept {j : ℕ} {served : List ℕ} (h : Blocked j m served) {p' : Pair}
    {vector : ℕ} (haccept : m.pics.accept = some (p', vector)) :
    Blocked j { m with pics := p' } served ∧ 0x20 ≤ vector ∧ vector < 0x28 + j := by
  have hset := h.inService
  rcases h.remapped.accept_cases haccept with ⟨i, hi, rfl, rfl⟩ | ⟨i, hi, rfl, hready, -, rfl⟩
  · exact ⟨⟨h.remapped.lines _ _ _ _, hset, h.served⟩, Nat.le_add_right _ _, by omega⟩
  · refine ⟨⟨h.remapped.lines _ _ _ _, ?_, h.served⟩, by omega, ?_⟩
    · change (m.pics.slave.acknowledge i).isr.getLsbD j = true
      rw [Chip.acknowledge_isr (mode_8086 h.remapped.mode.2).2, getLsbD_or_bit hi, hset,
        Bool.true_or]
    · -- what is in service stops the lines behind it
      by_contra hge
      have hfree := hready.2.2 j (by omega)
      rw [hset] at hfree
      cases hfree

/-- An event, or a change of the masks. Line `j` stays in service, so that of the slave only more
urgent lines can be taken. -/
theorem Blocked.step {j : ℕ} {served : List ℕ} (h : Blocked j m served) (op : MachineOp) :
    ∃ more, (machineStep m op).taken = m.taken ++ more ∧
      Blocked j (machineStep m op) (served ++ more) := by
  have hstay : ∃ more, m.taken = m.taken ++ more ∧ Blocked j m (served ++ more) :=
    ⟨[], (List.append_nil _).symm, by rwa [List.append_nil]⟩
  cases op with
  | mask op =>
    have hsame := maskStep_same h.remapped.ready op
    refine ⟨[], (List.append_nil _).symm, h.remapped.sameButMasks hsame, ?_, ?_⟩
    · change (maskStep m.pics op).slave.isr.getLsbD j = true
      rw [hsame.slave]
      exact h.inService
    · rw [List.append_nil]
      exact h.served
  | event event =>
    rw [machineStep, irqStep.eq_def]
    split_ifs with hhalted
    · exact hstay
    cases event with
    | raise line =>
      refine ⟨[], (List.append_nil _).symm, h.remapped.raise line, ?_, ?_⟩
      · change (m.pics.raise line).slave.isr.getLsbD j = true
        rw [Pair.raise]
        split_ifs <;> exact h.inService
      · rw [List.append_nil]
        exact h.served
    | accept scancode =>
      cases haccept : m.pics.accept with
      | none => exact hstay
      | some offer =>
        obtain ⟨hblocked, hlow, hhigh⟩ := h.accept haccept
        exact ⟨[offer.2], (takeVector_pics _ hlow scancode).2.2, hblocked.take hlow hhigh scancode⟩
    | spurious scancode =>
      have hvector : m.pics.spurious = some 0x27 := by
        rw [Pair.spurious, Chip.vector_eq (mode_8086 h.remapped.mode.1).1, h.remapped.base1]
        rfl
      dsimp only
      rw [hvector]
      exact ⟨[0x27], (takeVector_pics _ (by decide) scancode).2.2,
        h.take (by decide) (by omega) scancode⟩

theorem Blocked.run {j : ℕ} (ops : List MachineOp) :
    ∀ {m : Machine} {served : List ℕ}, Blocked j m served →
      ∃ more, (machineRun m ops).taken = m.taken ++ more ∧
        Blocked j (machineRun m ops) (served ++ more) := by
  induction ops with
  | nil => exact fun {_ _} h => ⟨[], (List.append_nil _).symm, by rwa [List.append_nil]⟩
  | cons op ops ih =>
    intro m served h
    obtain ⟨first, htaken, hstep⟩ := h.step op
    obtain ⟨more, htaken', hrun⟩ := ih hstep
    refine ⟨first ++ more, ?_, ?_⟩
    · rw [← List.append_assoc, ← htaken]
      exact htaken'
    · rwa [← List.append_assoc]

/-- **`irq_default` does not end the slave's interrupts.** With nothing in service before,
an interrupt is over after its handler exactly when its line is the master's. After one
of the slave's, the same vector and the ones behind it are never taken again, whatever
happens and whatever is masked or opened. -/
theorem irqDefault_blocks (m : Machine) (hremapped : Remapped m.pics) (hidle : Idle m.pics)
    (hrunning : m.halted = false) {pics : Pair} {vector : ℕ}
    (haccept : m.pics.accept = some (pics, vector)) (scancode : UInt8) :
    (Idle (irqStep m (.accept scancode)).pics ↔ vector < 0x28) ∧
      (0x28 ≤ vector → ∀ ops, ∃ later,
        (machineRun (irqStep m (.accept scancode)) ops).taken =
          (irqStep m (.accept scancode)).taken ++ later ∧ ∀ v ∈ later, v < vector) := by
  have hstep : irqStep m (.accept scancode) =
      takeVector { m with pics := pics } vector scancode := by
    rw [irqStep, if_neg (by rw [hrunning]; decide), haccept]
  rw [hstep]
  rcases hremapped.accept_cases haccept with ⟨i, hi, rfl, rfl⟩ | ⟨i, hi, rfl, -, -, rfl⟩
  · refine ⟨iff_of_true ?_ (by omega), fun h => absurd h (by omega)⟩
    rw [(takeVector_pics _ (Nat.le_add_right _ _) scancode).1]
    refine ⟨?_, hidle.2⟩
    exact (congrArg Chip.isr (Chip.acknowledge_eoi (mode_8086 hremapped.mode.1).2 hidle.1 hi)).trans
      hidle.1
  · have hset : (m.pics.slave.acknowledge i).isr.getLsbD i = true := by
      rw [Chip.acknowledge_isr (mode_8086 hremapped.mode.2).2, getLsbD_or_bit hi,
        decide_eq_true rfl, Bool.or_true]
    have hremapped' : Remapped ⟨m.pics.master.acknowledge 2, m.pics.slave.acknowledge i⟩ :=
      hremapped.lines _ _ _ _
    have hlow : 0x20 ≤ 0x28 + i := by omega
    obtain ⟨hpics, -, -⟩ := takeVector_pics
      { m with pics := ⟨m.pics.master.acknowledge 2, m.pics.slave.acknowledge i⟩ } hlow scancode
    refine ⟨iff_of_false (fun hidle' => ?_) (by omega), fun _ ops => ?_⟩
    · have hzero := hidle'.2
      rw [hpics] at hzero
      change (m.pics.slave.acknowledge i).isr = 0#8 at hzero
      rw [hzero, BitVec.getLsbD_zero] at hset
      cases hset
    · have hblocked : Blocked i (takeVector { m with
          pics := ⟨m.pics.master.acknowledge 2, m.pics.slave.acknowledge i⟩ } (0x28 + i) scancode)
          [] := by
        refine ⟨Remapped.take (m := { m with pics := _ }) hremapped' hlow scancode, ?_,
          fun v hv => absurd hv List.not_mem_nil⟩
        rw [hpics]
        exact hset
      obtain ⟨more, htaken, hrun⟩ := hblocked.run ops
      exact ⟨more, htaken, hrun.served⟩

/-- The machine after boot, with line 8 opened and requested. -/
def slaveMachine : Machine :=
  machineRun (machineBoot ⟨⟨0, 0, 0, 0, 0, 0, false, false, .ready⟩,
    ⟨0, 0, 0, 0, 0, 0, false, false, .ready⟩⟩ sysZero.kbd) [.mask (.clear 8), .event (.raise 8)]

/-- Line 8 is served once. -/
theorem irqDefault_blocks_slave : ∃ later,
    (machineRun (irqStep slaveMachine (.accept 0)) [.event (.raise 8), .event (.accept 0)]).taken =
      (irqStep slaveMachine (.accept 0)).taken ++ later ∧ ∀ v ∈ later, v < 0x28 :=
  (irqDefault_blocks slaveMachine ⟨⟨rfl, rfl⟩, ⟨rfl, rfl⟩, ⟨rfl, rfl⟩, rfl, rfl⟩
    ⟨rfl, rfl⟩ rfl
    (show slaveMachine.pics.accept = some (⟨slaveMachine.pics.master.acknowledge 2,
      slaveMachine.pics.slave.acknowledge 0⟩, 0x28) by decide) 0).2 (by decide) _

end

end WaluOs
