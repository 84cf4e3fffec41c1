import WaluOs.Loops
import WaluOs.Tty

/-!
# The interrupt table

`idt_init` fills 256 gates, sixteen bytes each, first all with `irq_default` and then 34
of them with their own handlers. What the processor makes of a vector is read off the
bytes: it checks the limit, and takes the pieces of the handler's address from three
places of the gate. `idt_dispatch` says that it ends up where the code meant it to.

An exception does not come back: `panic_exception` prints and halts.
-/

namespace WaluOs

open Loops

/-! ## The code -/

/-- `struct idt_entry` -/
structure IdtEntry : Type where
  /-- `offset_low` -/
  offsetLow : BitVec 16
  /-- `selector` -/
  selector : BitVec 16
  /-- `ist` -/
  ist : BitVec 8
  /-- `type_attr` -/
  typeAttr : BitVec 8
  /-- `offset_mid` -/
  offsetMid : BitVec 16
  /-- `offset_high` -/
  offsetHigh : BitVec 32
  /-- `zero` -/
  zero : BitVec 32
  deriving DecidableEq, Repr

/-- The functions gates lead to. The linker decides where they are, so they are names here, and
the addresses a parameter. -/
inductive Handler : Type where
  /-- `isr_0` to `isr_31` -/
  | isr : ℕ → Handler
  /-- `irq_timer` -/
  | irqTimer : Handler
  /-- `irq_keyboard` -/
  | irqKeyboard : Handler
  /-- `irq_default` -/
  | irqDefault : Handler
  deriving DecidableEq, Repr

/-- What `idt_set_gate` writes, for a handler's address. -/
def gateEntry (addr : BitVec 64) (flags : BitVec 8) : IdtEntry where
  offsetLow := (addr &&& 0xFFFF#64).setWidth 16
  selector := 0x08#16
  ist := 0#8
  typeAttr := flags
  offsetMid := ((addr >>> 16) &&& 0xFFFF#64).setWidth 16
  offsetHigh := ((addr >>> 32) &&& 0xFFFFFFFF#64).setWidth 32
  zero := 0#32

/-- `idt_set_gate` -/
def idtSetGate (idt : ℕ → IdtEntry) (vector : ℕ) (addr : BitVec 64) (flags : BitVec 8) :
    ℕ → IdtEntry :=
  Function.update idt vector (gateEntry addr flags)

/-- `idt_init`, given where the linker has put the handlers. All 256 gates are set to
`irq_default` first, and then those that have a handler of their own. -/
def idtInit (addr : Handler → BitVec 64) : ℕ → IdtEntry :=
  let idt := fun _ => ⟨0#16, 0#16, 0#8, 0#8, 0#16, 0#32, 0#32⟩
  let idt := forRange 0 256 (fun idt i => idtSetGate idt i (addr .irqDefault) 0x8E#8) idt
  let idt := forRange 0 32 (fun idt n => idtSetGate idt n (addr (.isr n)) 0x8E#8) idt
  let idt := idtSetGate idt 32 (addr .irqTimer) 0x8E#8
  idtSetGate idt 33 (addr .irqKeyboard) 0x8E#8

/-- `idtr.limit` -/
def idtLimit : ℕ := 256 * 16 - 1

/-- What `panic_exception` prints before it halts. `DEFINE_ISR_ERR` calls it with the error code
that the processor has pushed, `DEFINE_ISR_NOERR` with none. -/
def panicException (vector errorCode : UInt64) (hasErrorCode : Bool) (cr2 : UInt64) : List Call :=
  [.consoleWrite (text "\n[KERNEL PANIC] CPU exception "), .consoleWriteDec vector] ++
    (if hasErrorCode then [.consoleWrite (text " error="), .consoleWriteHex errorCode] else []) ++
    (if vector = 14 then [.consoleWrite (text " cr2="), .consoleWriteHex cr2] else []) ++
    [.consoleWrite (text "\nSystem halted.\n")]

/-! ## The table in memory -/

/-- The bytes of a number, lowest first. -/
def leBytes {w : ℕ} (n : ℕ) (x : BitVec w) : List (BitVec 8) :=
  (List.range n).map fun k => x.extractLsb' (8 * k) 8

/-- The packed structure. -/
def IdtEntry.bytes (e : IdtEntry) : List (BitVec 8) :=
  leBytes 2 e.offsetLow ++ leBytes 2 e.selector ++ [e.ist, e.typeAttr] ++ leBytes 2 e.offsetMid ++
    leBytes 4 e.offsetHigh ++ leBytes 4 e.zero

/-- The array, byte by byte, as it lies in memory. The processor knows nothing of the fields of
`struct idt_entry`, and reads these. -/
def idtImage (idt : ℕ → IdtEntry) (offset : ℕ) : BitVec 8 :=
  (idt (offset / 16)).bytes.getD (offset % 16) 0#8

/-! ## The processor -/

/-- A gate as the processor understands it. The fields of `struct idt_entry` hold its address in
three parts and its kind in the bits of one byte. -/
@[ext] structure Gate : Type where
  /-- where it leads -/
  offset : BitVec 64
  /-- its code segment -/
  selector : BitVec 16
  /-- its stack, 0 for none -/
  ist : BitVec 3
  /-- 14 for an interrupt gate -/
  gateType : BitVec 4
  /-- who may use it -/
  dpl : BitVec 2
  /-- present -/
  present : Bool
  deriving DecidableEq, Repr

/-- The processor reads the sixteen bytes of a gate. -/
def decodeGate (b : ℕ → BitVec 8) : Gate where
  offset := b 11 ++ b 10 ++ b 9 ++ b 8 ++ b 7 ++ b 6 ++ b 1 ++ b 0
  selector := b 3 ++ b 2
  ist := (b 4).extractLsb' 0 3
  gateType := (b 5).extractLsb' 0 4
  dpl := (b 5).extractLsb' 5 2
  present := (b 5).getLsbD 7

/-- The gate of a vector, if the table is that long. It is read from the bytes, so that it says
what the processor does and not what the code meant. -/
def cpuGate (limit : ℕ) (image : ℕ → BitVec 8) (vector : ℕ) : Option Gate :=
  if vector * 16 + 15 ≤ limit then some (decodeGate fun k => image (vector * 16 + k)) else none

/-- The handler that the code means for a vector: the exceptions, the timer, the keyboard, and
`irq_default` for all others. -/
def handlerOf (vector : ℕ) : Handler :=
  if vector < 32 then .isr vector
  else if vector = 32 then .irqTimer
  else if vector = 33 then .irqKeyboard
  else .irqDefault

/-! ## Dispatch -/

/-- A byte of a masked and shifted piece of an address. -/
theorem extract_piece (addr mask : BitVec 64) {s w j : ℕ}
    (hmask : ∀ i < w, mask.getLsbD i = true) (hj : j + 8 ≤ w) :
    (((addr >>> s) &&& mask).setWidth w).extractLsb' j 8 = addr.extractLsb' (s + j) 8 := by
  refine BitVec.eq_of_getLsbD_eq fun i hi => ?_
  rw [BitVec.getLsbD_extractLsb', BitVec.getLsbD_extractLsb', BitVec.getLsbD_setWidth,
    BitVec.getLsbD_and, BitVec.getLsbD_ushiftRight, hmask (j + i) (by omega),
    decide_eq_true (show j + i < w by omega), Bool.and_true, Bool.true_and, Nat.add_assoc]

/-- The bytes of a number make the number. -/
theorem append_bytes (a : BitVec 64) :
    a.extractLsb' 56 8 ++ a.extractLsb' 48 8 ++ a.extractLsb' 40 8 ++ a.extractLsb' 32 8 ++
      a.extractLsb' 24 8 ++ a.extractLsb' 16 8 ++ a.extractLsb' 8 8 ++ a.extractLsb' 0 8 = a := by
  rw [BitVec.extractLsb'_append_extractLsb'_eq_extractLsb' (by rfl),
    BitVec.extractLsb'_append_extractLsb'_eq_extractLsb' (by rfl),
    BitVec.extractLsb'_append_extractLsb'_eq_extractLsb' (by rfl),
    BitVec.extractLsb'_append_extractLsb'_eq_extractLsb' (by rfl),
    BitVec.extractLsb'_append_extractLsb'_eq_extractLsb' (by rfl),
    BitVec.extractLsb'_append_extractLsb'_eq_extractLsb' (by rfl),
    BitVec.extractLsb'_append_extractLsb'_eq_extractLsb' (by rfl)]
  exact BitVec.extractLsb'_eq_self

/-- The masks of `idt_set_gate`. -/
theorem gateMasks : (∀ i < 16, (0xFFFF#64).getLsbD i = true) ∧
    ∀ i < 32, (0xFFFFFFFF#64).getLsbD i = true := by
  decide

/-- The gate that `idt_set_gate` writes, read by the processor. -/
theorem decodeGate_gateEntry (addr : BitVec 64) (flags : BitVec 8) :
    decodeGate (fun k => (gateEntry addr flags).bytes.getD k 0#8) =
      ⟨addr, 0x08#16, 0#3, flags.extractLsb' 0 4, flags.extractLsb' 5 2, flags.getLsbD 7⟩ := by
  have hlow := fun j (hj : j + 8 ≤ 16) =>
    extract_piece addr 0xFFFF#64 (s := 0) gateMasks.1 hj
  have hmid := fun j (hj : j + 8 ≤ 16) =>
    extract_piece addr 0xFFFF#64 (s := 16) gateMasks.1 hj
  have hhigh := fun j (hj : j + 8 ≤ 32) =>
    extract_piece addr 0xFFFFFFFF#64 (s := 32) gateMasks.2 hj
  rw [BitVec.ushiftRight_zero addr] at hlow
  set low := (addr &&& 0xFFFF#64).setWidth 16 with hl
  set mid := ((addr >>> 16) &&& 0xFFFF#64).setWidth 16 with hm
  set high := ((addr >>> 32) &&& 0xFFFFFFFF#64).setWidth 32 with hh
  have hoffset : high.extractLsb' 24 8 ++ high.extractLsb' 16 8 ++ high.extractLsb' 8 8 ++
      high.extractLsb' 0 8 ++ mid.extractLsb' 8 8 ++ mid.extractLsb' 0 8 ++ low.extractLsb' 8 8 ++
        low.extractLsb' 0 8 = addr := by
    rw [hlow 0 (by decide), hlow 8 (by decide), hmid 0 (by decide), hmid 8 (by decide),
      hhigh 0 (by decide), hhigh 8 (by decide), hhigh 16 (by decide), hhigh 24 (by decide)]
    exact append_bytes addr
  have hselector : (0x08#16).extractLsb' 8 8 ++ (0x08#16).extractLsb' 0 8 = 0x08#16 := by decide
  have hist : (0#8).extractLsb' 0 3 = 0#3 := by decide
  exact Gate.ext hoffset hselector hist rfl rfl rfl

/-- The first `n` gates after a loop that writes them. -/
theorem forRange_setGate (idt : ℕ → IdtEntry) (addr : ℕ → BitVec 64) (flags : BitVec 8) (n : ℕ) :
    ∀ vector, forRange 0 n (fun idt i => idtSetGate idt i (addr i) flags) idt vector =
      if vector < n then gateEntry (addr vector) flags else idt vector := by
  refine forRange_rule (fun n (t : ℕ → IdtEntry) => ∀ vector, t vector =
    if vector < n then gateEntry (addr vector) flags else idt vector) (Nat.zero_le n)
    (fun vector => (if_neg (Nat.not_lt_zero vector)).symm) fun i t _ _ ht vector => ?_
  rw [idtSetGate]
  by_cases hv : vector = i
  · rw [hv, Function.update_self, if_pos (Nat.lt_succ_self i)]
  · rw [Function.update_of_ne hv, ht vector]
    by_cases hlt : vector < i
    · rw [if_pos hlt, if_pos (Nat.lt_succ_of_lt hlt)]
    · rw [if_neg hlt, if_neg (by omega)]

/-- What `idt_init` leaves in a gate. -/
theorem idtInit_gate (addr : Handler → BitVec 64) {vector : ℕ} (h : vector < 256) :
    idtInit addr vector = gateEntry (addr (handlerOf vector)) 0x8E#8 := by
  rw [idtInit, idtSetGate, handlerOf]
  by_cases hkey : vector = 33
  · subst hkey
    exact Function.update_self ..
  · rw [Function.update_of_ne hkey, idtSetGate]
    by_cases htimer : vector = 32
    · subst htimer
      exact Function.update_self ..
    · rw [Function.update_of_ne htimer, forRange_setGate _ (fun n => addr (.isr n)),
        forRange_setGate _ fun _ => addr .irqDefault, if_pos h, if_neg htimer, if_neg hkey]
      split_ifs <;> rfl

/-- **The processor finds the handler that was meant**, for every vector, wherever the
linker has put the handlers: an interrupt gate of the kernel's code segment, present, on
the current stack, and only for the kernel's own use. -/
theorem idt_dispatch (addr : Handler → BitVec 64) (vector : ℕ) :
    cpuGate idtLimit (idtImage (idtInit addr)) vector =
      if vector < 256 then some ⟨addr (handlerOf vector), 0x08#16, 0#3, 14#4, 0#2, true⟩
      else none := by
  rw [cpuGate]
  by_cases h : vector < 256
  · have hbyte : ∀ k < 16, idtImage (idtInit addr) (vector * 16 + k) =
        (gateEntry (addr (handlerOf vector)) 0x8E#8).bytes.getD k 0#8 := by
      intro k hk
      rw [idtImage, Nat.mul_comm, Nat.mul_add_div (by decide), Nat.div_eq_of_lt hk, Nat.add_zero,
        idtInit_gate addr h, Nat.mul_add_mod, Nat.mod_eq_of_lt hk]
    have hgate : decodeGate (fun k => idtImage (idtInit addr) (vector * 16 + k)) =
        decodeGate fun k => (gateEntry (addr (handlerOf vector)) 0x8E#8).bytes.getD k 0#8 := by
      simp only [decodeGate]
      rw [hbyte 0 (by decide), hbyte 1 (by decide), hbyte 2 (by decide), hbyte 3 (by decide),
        hbyte 4 (by decide), hbyte 5 (by decide), hbyte 6 (by decide), hbyte 7 (by decide),
        hbyte 8 (by decide), hbyte 9 (by decide), hbyte 10 (by decide), hbyte 11 (by decide)]
    rw [if_pos (by simp only [idtLimit]; omega), if_pos h, hgate, decodeGate_gateEntry]
    rfl
  · rw [if_neg (by simp only [idtLimit]; omega), if_neg h]

end WaluOs
