import Mathlib.Data.List.Range

/-!
# A pair of 8259 interrupt controllers

Two cascaded controllers as a PC has them: the second hangs at line 2 of the first.
A controller collects requests (`irr`), some of which are masked (`imr`), and offers the
processor the most urgent one, as long as no line of the same or a higher urgency is in
service (`isr`). Accepting it moves it into service, and only an end-of-interrupt
command takes it out again.

Programming goes through two ports. A word to the command port with bit 4 set (ICW1)
starts an initialization, and the next words to the data port are then ICW2, ICW3 and
ICW4; at any other time the data port is the mask. Of the other command words only the
non-specific end of interrupt is here. Two bits of ICW4 act: a controller answers with a
vector in 8086 mode only, and with the automatic end of interrupts nothing stays in service.
-/

namespace Pic8259

/-- What the data port means next. The words of an initialization are told apart by their order
alone, so a word that comes too early or too late is taken for another one. -/
inductive Stage : Type where
  /-- the vector base -/
  | icw2 : Stage
  /-- the cascade wiring -/
  | icw3 : Stage
  /-- the mode -/
  | icw4 : Stage
  /-- the mask -/
  | ready : Stage
  deriving DecidableEq, Repr

/-- One controller. The registers `irr`, `imr` and `isr` have a bit for each line, and line 0 is
the most urgent one; the rest is what the words of the initialization have said. -/
structure Chip : Type where
  /-- requests -/
  irr : BitVec 8
  /-- masked lines -/
  imr : BitVec 8
  /-- lines in service -/
  isr : BitVec 8
  /-- ICW2 -/
  base : BitVec 8
  /-- ICW3 -/
  cascade : BitVec 8
  /-- ICW4 -/
  mode : BitVec 8
  /-- ICW1: no ICW3 follows -/
  single : Bool
  /-- ICW1: an ICW4 follows -/
  needsIcw4 : Bool
  /-- what the data port means next -/
  stage : Stage
  deriving DecidableEq, Repr

/-- A register with the bit of a line. -/
def bit (line : ℕ) : BitVec 8 := 1#8 <<< line

/-- The most urgent line of a register. -/
def lowest (lines : BitVec 8) : Option ℕ := (List.range 8).find? fun i => lines.getLsbD i

/-- The command word that ends an interrupt. -/
abbrev eoi : BitVec 8 := 0x20#8

namespace Chip

/-- A line is requested, not masked, and nothing as urgent is in service. -/
def Ready (c : Chip) (i : ℕ) : Prop :=
  c.irr.getLsbD i = true ∧ c.imr.getLsbD i = false ∧ ∀ j ≤ i, c.isr.getLsbD j = false

instance (c : Chip) (i : ℕ) : Decidable (c.Ready i) :=
  inferInstanceAs (Decidable (_ ∧ _ ∧ ∀ j ≤ i, c.isr.getLsbD j = false))

/-- The line the controller offers. While it is being initialized it offers none. -/
def request (c : Chip) : Option ℕ :=
  if c.stage = .ready then (List.range 8).find? fun i => decide (c.Ready i) else none

/-- ICW4: the processor is an 8086, and gets a vector. (To an 8085 the controller sends a call
instruction instead.) -/
def Vectored (c : Chip) : Prop := c.mode.getLsbD 0 = true

instance (c : Chip) : Decidable c.Vectored := inferInstanceAs (Decidable (_ = true))

/-- ICW4: an interrupt ends when it is accepted. -/
def AutoEoi (c : Chip) : Prop := c.mode.getLsbD 1 = true

instance (c : Chip) : Decidable c.AutoEoi := inferInstanceAs (Decidable (_ = true))

/-- The vector of a line. -/
def vector (c : Chip) (line : ℕ) : Option ℕ :=
  if c.Vectored then some (c.base.toNat / 8 * 8 + line) else none

/-- A line is accepted. It is in service from then on, unless its end is automatic. -/
def acknowledge (c : Chip) (line : ℕ) : Chip :=
  { c with
    irr := c.irr &&& ~~~bit line
    isr := if c.AutoEoi then c.isr else c.isr ||| bit line }

/-- A word to the command port. -/
def command (c : Chip) (word : BitVec 8) : Chip :=
  if word.getLsbD 4 then
    { c with
      irr := 0#8
      imr := 0#8
      single := word.getLsbD 1
      needsIcw4 := word.getLsbD 0
      mode := if word.getLsbD 0 then c.mode else 0#8
      stage := .icw2 }
  else if word = eoi then
    match lowest c.isr with
    | some line => { c with isr := c.isr &&& ~~~bit line }
    | none => c
  else c

/-- What follows ICW3. -/
def afterIcw3 (c : Chip) : Stage := if c.needsIcw4 then .icw4 else .ready

/-- A word to the data port. -/
def data (c : Chip) (word : BitVec 8) : Chip :=
  match c.stage with
  | .icw2 => { c with base := word, stage := if c.single then c.afterIcw3 else .icw3 }
  | .icw3 => { c with cascade := word, stage := c.afterIcw3 }
  | .icw4 => { c with mode := word, stage := .ready }
  | .ready => { c with imr := word }

/-- A device requests a line. -/
def raise (c : Chip) (line : ℕ) : Chip := { c with irr := c.irr ||| bit line }

end Chip

/-- The two controllers. The slave offers its lines to the master, which takes them for its line
2, so that its lines come between the lines 1 and 3 of the master. -/
structure Pair : Type where
  /-- at the processor -/
  master : Chip
  /-- at line 2 of the master -/
  slave : Chip
  deriving DecidableEq, Repr

namespace Pair

/-- The master with the slave at its line 2. -/
def wired (p : Pair) : Chip :=
  { p.master with
    irr := if p.slave.request.isSome then p.master.irr ||| bit 2 else p.master.irr &&& ~~~bit 2 }

/-- ICW3 of both says how they are wired. -/
def Cascaded (p : Pair) : Prop := p.master.cascade = 4#8 ∧ p.slave.cascade = 2#8

instance (p : Pair) : Decidable p.Cascaded :=
  inferInstanceAs (Decidable (p.master.cascade = 4#8 ∧ p.slave.cascade = 2#8))

/-- The processor accepts what is offered, and gets a vector. At line 2 of the master that is
the slave's, and both controllers count the interrupt as theirs. -/
def accept (p : Pair) : Option (Pair × ℕ) :=
  match p.wired.request with
  | none => none
  | some line =>
    if line = 2 ∧ p.Cascaded then
      match p.slave.request with
      | some i => (p.slave.vector i).map (⟨p.master.acknowledge 2, p.slave.acknowledge i⟩, ·)
      | none => none
    else (p.master.vector line).map (⟨p.master.acknowledge line, p.slave⟩, ·)

/-- The vector of a request that is gone when the processor asks for it. -/
def spurious (p : Pair) : Option ℕ := p.master.vector 7

/-- A device requests one of the 16 lines. -/
def raise (p : Pair) (line : ℕ) : Pair :=
  if line < 8 then ⟨p.master.raise line, p.slave⟩ else ⟨p.master, p.slave.raise (line - 8)⟩

end Pair

/-! ## Bits -/

theorem getLsbD_bit {i : ℕ} (hi : i < 8) (j : ℕ) : (bit i).getLsbD j = decide (j = i) := by
  rw [bit]
  by_cases hj : j < 8
  · have hall : ∀ i < 8, ∀ j < 8, (1#8 <<< i).getLsbD j = decide (j = i) := by decide
    exact hall i hi j hj
  · rw [BitVec.getLsbD_of_ge _ _ (Nat.not_lt.mp hj)]
    exact (decide_eq_false (by omega)).symm

theorem getLsbD_or_bit {i : ℕ} (hi : i < 8) (x : BitVec 8) (j : ℕ) :
    (x ||| bit i).getLsbD j = (x.getLsbD j || decide (j = i)) := by
  rw [BitVec.getLsbD_or, getLsbD_bit hi]

theorem getLsbD_and_not_bit {i : ℕ} (hi : i < 8) (x : BitVec 8) (j : ℕ) :
    (x &&& ~~~bit i).getLsbD j = (x.getLsbD j && !decide (j = i)) := by
  rw [BitVec.getLsbD_and, BitVec.getLsbD_not, getLsbD_bit hi]
  by_cases hj : j < 8
  · rw [decide_eq_true hj, Bool.true_and]
  · rw [BitVec.getLsbD_of_ge _ _ (Nat.not_lt.mp hj), Bool.false_and, Bool.false_and]

theorem lowest_eq_some_iff {lines : BitVec 8} {i : ℕ} :
    lowest lines = some i ↔
      i < 8 ∧ lines.getLsbD i = true ∧ ∀ j < i, lines.getLsbD j = false := by
  rw [lowest, List.find?_range_eq_some]
  simp only [List.mem_range, Bool.not_eq_true']
  tauto

theorem lowest_eq_none_iff {lines : BitVec 8} : lowest lines = none ↔ lines = 0#8 := by
  rw [lowest, List.find?_range_eq_none]
  constructor
  · intro h
    refine BitVec.eq_of_getLsbD_eq fun i hi => ?_
    simpa using h i hi
  · rintro rfl i -
    simp

/-- Ending the only interrupt in service. -/
theorem lowest_bit {i : ℕ} (hi : i < 8) : lowest (bit i) = some i := by
  rw [lowest_eq_some_iff, getLsbD_bit hi]
  exact ⟨hi, decide_eq_true rfl, fun j hj => by rw [getLsbD_bit hi, decide_eq_false (by omega)]⟩

namespace Chip

variable {c : Chip} {i : ℕ}

theorem request_eq_some_iff : c.request = some i ↔
    c.stage = .ready ∧ i < 8 ∧ c.Ready i ∧ ∀ j < i, ¬c.Ready j := by
  rw [request]
  by_cases hs : c.stage = .ready
  · rw [if_pos hs, List.find?_range_eq_some]
    simp only [decide_eq_true_eq, List.mem_range, Bool.not_eq_true', decide_eq_false_iff_not]
    tauto
  · rw [if_neg hs]
    exact ⟨fun h => (by cases h), fun h => absurd h.1 hs⟩

theorem request_eq_none_iff (hs : c.stage = .ready) :
    c.request = none ↔ ∀ i < 8, ¬c.Ready i := by
  rw [request, if_pos hs, List.find?_range_eq_none]
  simp only [Bool.not_eq_true', decide_eq_false_iff_not]

/-- With nothing in service, a line is offered if it is the first one requested. -/
theorem ready_iff (h : c.isr = 0#8) :
    c.Ready i ↔ c.irr.getLsbD i = true ∧ c.imr.getLsbD i = false := by
  rw [Ready, h]
  exact ⟨fun hr => ⟨hr.1, hr.2.1⟩, fun hr => ⟨hr.1, hr.2, fun j _ => BitVec.getLsbD_zero ..⟩⟩

/-- An initialized controller takes a word to its data port as its mask. -/
theorem data_ready (h : c.stage = .ready) (word : BitVec 8) :
    c.data word = { c with imr := word } := by
  simp only [data, h]

/-- The end of an interrupt. -/
theorem command_eoi (c : Chip) : c.command eoi =
    (lowest c.isr).elim c fun line => { c with isr := c.isr &&& ~~~bit line } := by
  rw [command, if_neg (by decide), if_pos rfl]
  cases lowest c.isr <;> rfl

theorem vector_eq (h : c.Vectored) (line : ℕ) :
    c.vector line = some (c.base.toNat / 8 * 8 + line) := if_pos h

theorem acknowledge_isr (h : ¬c.AutoEoi) (line : ℕ) :
    (c.acknowledge line).isr = c.isr ||| bit line := if_neg h

/-- Accepting a line and ending it leaves nothing in service. -/
theorem acknowledge_eoi (hend : ¬c.AutoEoi) (h : c.isr = 0#8) (hi : i < 8) :
    (c.acknowledge i).command eoi = { c with irr := c.irr &&& ~~~bit i } := by
  have hisr : (c.acknowledge i).isr = bit i := by
    rw [acknowledge_isr hend, h, BitVec.zero_or]
  have hclear : bit i &&& ~~~bit i = 0#8 := by simp
  rw [command_eoi, hisr, lowest_bit hi, Option.elim_some, hclear]
  exact congrArg (fun isr => ({ c with irr := c.irr &&& ~~~bit i, isr := isr } : Chip)) h.symm

/-- Nothing in service: there is nothing to end. -/
theorem eoi_idle (h : c.isr = 0#8) : c.command eoi = c := by
  rw [command_eoi, h, lowest_eq_none_iff.mpr rfl]
  rfl

end Chip

end Pic8259
