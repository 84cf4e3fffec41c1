import Mathlib.Algebra.Order.Ring.Nat

/-!
# A channel of an 8254 interval timer

A control word chooses one of six modes and says how the count is written; the bytes of the count
follow. With the next cycle of the clock the count is loaded, and from then on the mode says what
the output does. The gate is tied high, as it is for channel 0 of a PC: the two modes that wait
for it to rise never start.

Whoever counts the times the output rises (`edges`) finds one for each period of a square wave
(`edges_squareWave`). A count of 1 has no two halves: the modes that repeat are not defined for
it, and `ticks` says so.
-/

namespace Pit8254

/-- What the output does with a count. In two of the modes the count is loaded again whenever it
has run out; in the others it runs once, and they wait for a new one or for the gate. -/
inductive Mode : Type where
  /-- mode 0: it rises once, when the count has run out -/
  | terminalCount : Mode
  /-- mode 1: a pulse, whenever the gate rises -/
  | oneShot : Mode
  /-- mode 2: it is low for the last cycle of each period -/
  | rateGenerator : Mode
  /-- mode 3: it is high for one half of each period, and low for the other -/
  | squareWave : Mode
  /-- mode 4: it is low for one cycle, when the count has run out -/
  | softwareStrobe : Mode
  /-- mode 5: the same, after the gate has risen -/
  | hardwareStrobe : Mode
  deriving DecidableEq, Repr

/-- Which bytes of the count are written. A byte that is not written is 0, and if both are,
nothing happens until the second one. -/
inductive Access : Type where
  /-- the low byte; the other one is 0 -/
  | lowByte : Access
  /-- the high byte; the other one is 0 -/
  | highByte : Access
  /-- the low byte and then the high byte -/
  | bothBytes : Access
  deriving DecidableEq, Repr

/-- A channel. The count that was written is kept besides the one that is counted down, since a
mode that repeats goes back to it. -/
structure Channel : Type where
  /-- how the count is written -/
  access : Access
  /-- what the output does -/
  mode : Mode
  /-- the count has four decimal digits -/
  bcd : Bool
  /-- the low byte, when the high byte is still to come -/
  low : Option (BitVec 8)
  /-- the count, once it has been written -/
  reload : Option ℕ
  /-- the cycles that are left of it, once it has been loaded; of a square wave, those that are
  left of the half -/
  counter : Option ℕ
  /-- the level of the output -/
  out : Bool
  deriving DecidableEq, Repr

/-- Bits 1 to 3 of a control word. -/
def modeOf (word : BitVec 8) : Mode :=
  match ((word >>> 1) &&& 7#8).toNat with
  | 0 => .terminalCount
  | 1 => .oneShot
  | 4 => .softwareStrobe
  | 5 => .hardwareStrobe
  -- bit 3 does not count for the others
  | 2 | 6 => .rateGenerator
  | _ => .squareWave

/-- Bits 4 and 5 of a control word; 0 is no access, but latches the count to be read. -/
def accessOf (word : BitVec 8) : Option Access :=
  match ((word >>> 4) &&& 3#8).toNat with
  | 0 => none
  | 1 => some .lowByte
  | 2 => some .highByte
  | _ => some .bothBytes

/-- The level that a mode starts with. -/
def Mode.start (mode : Mode) : Bool := mode ≠ .terminalCount

/-- A count that repeats is loaded anew whenever it has run out. -/
def Mode.Repeats (mode : Mode) : Prop := mode = .rateGenerator ∨ mode = .squareWave

instance (mode : Mode) : Decidable mode.Repeats := inferInstanceAs (Decidable (_ ∨ _))

/-- The number that a word stands for; 0 is the largest one. -/
def countOf (bcd : Bool) (word : ℕ) : ℕ :=
  if bcd then
    let count :=
      word / 4096 % 16 * 1000 + word / 256 % 16 * 100 + word / 16 % 16 * 10 + word % 16
    if count = 0 then 10000 else count
  else if word = 0 then 65536 else word

namespace Channel

/-- A word to the control port, as the first channel sees it. -/
def command (c : Channel) (word : BitVec 8) : Channel :=
  if word >>> 6 ≠ 0#8 then c
  else
    match accessOf word with
    | none => c
    | some access =>
      { access := access
        mode := modeOf word
        bcd := word.getLsbD 0
        low := none
        reload := none
        counter := none
        out := (modeOf word).start }

/-- The count is complete. What repeats finishes its period first. -/
def load (c : Channel) (word : ℕ) : Channel :=
  if c.mode.Repeats then { c with low := none, reload := some (countOf c.bcd word) }
  else
    { c with
      low := none
      reload := some (countOf c.bcd word)
      counter := none
      out := c.mode.start }

/-- A byte to the port of the channel. -/
def data (c : Channel) (byte : BitVec 8) : Channel :=
  match c.access with
  | .lowByte => c.load byte.toNat
  | .highByte => c.load (byte.toNat * 256)
  | .bothBytes =>
    match c.low with
    | none => { c with low := some byte }
    | some low => c.load (byte.toNat * 256 + low.toNat)

/-- The cycles of one half of a square wave. -/
def half (n : ℕ) (high : Bool) : ℕ := if high then (n + 1) / 2 else n / 2

/-- A cycle of the clock. -/
def cycle (c : Channel) : Channel :=
  match c.reload, c.counter with
  | none, _ => c
  | some n, none =>
    { c with counter := some (if c.mode = .squareWave then half n c.out else n) }
  | some n, some left =>
    match c.mode with
    | .terminalCount => { c with counter := some (left - 1), out := c.out || left ≤ 1 }
    | .oneShot => c
    | .rateGenerator =>
      if left ≤ 1 then { c with counter := some n, out := true }
      else { c with counter := some (left - 1), out := left - 1 ≠ 1 }
    | .squareWave =>
      if left ≤ 1 then { c with counter := some (half n (!c.out)), out := !c.out }
      else { c with counter := some (left - 1) }
    | .softwareStrobe => { c with counter := some (left - 1), out := left ≠ 1 }
    | .hardwareStrobe => c

/-- Does the output rise in the next cycle? -/
def rises (c : Channel) : Bool := !c.out && c.cycle.out

/-- How often it rises in so many cycles. -/
def edges (c : Channel) : ℕ → ℕ
  | 0 => 0
  | n + 1 => (if c.rises then 1 else 0) + c.cycle.edges n

/-- The device is defined for the count. -/
def Defined (c : Channel) : Prop := ∀ n ∈ c.reload, c.mode.Repeats → 2 ≤ n

instance (c : Channel) : Decidable c.Defined := by
  unfold Defined
  infer_instance

/-- How often the output rises, where that is defined. For an undefined count there is no number,
and not some number that the model happens to give. -/
def ticks (c : Channel) (n : ℕ) : Option ℕ := if c.Defined then some (c.edges n) else none

/-! ## The square wave -/

/-- A square wave of `n` cycles, `p` cycles after it has risen. It is the invariant of such a
channel: a cycle takes `p` to `p + 1`, or to 0 at the end of the period, where the output rises.
-/
structure Wave (c : Channel) (n p : ℕ) : Prop where
  /-- the mode -/
  mode : c.mode = .squareWave
  /-- the period -/
  reload : c.reload = some n
  /-- it has two halves -/
  least : 2 ≤ n
  /-- the period is not over -/
  lt : p < n
  /-- it is high in the first half -/
  out : c.out = decide (p < (n + 1) / 2)
  /-- the rest of the half -/
  counter : c.counter = some (if p < (n + 1) / 2 then (n + 1) / 2 - p else n - p)

variable {c : Channel} {n p : ℕ}

/-- What a cycle does in mode 3. -/
theorem cycle_squareWave (hmode : c.mode = .squareWave) {left : ℕ} (hreload : c.reload = some n)
    (hcounter : c.counter = some left) :
    c.cycle =
      if left ≤ 1 then { c with counter := some (half n (!c.out)), out := !c.out }
      else { c with counter := some (left - 1) } := by
  simp only [cycle, hreload, hcounter, hmode]

/-- A cycle inside a period. -/
theorem Wave.cycle (h : c.Wave n p) (hp : p + 1 < n) :
    c.cycle.Wave n (p + 1) ∧ c.rises = false := by
  have hcycle := cycle_squareWave h.mode h.reload h.counter
  rw [rises, hcycle]
  by_cases hhigh : p < (n + 1) / 2
  · have hout : c.out = true := h.out.trans (decide_eq_true hhigh)
    rw [if_pos hhigh, hout]
    refine ⟨?_, rfl⟩
    by_cases hnext : p + 1 < (n + 1) / 2
    · rw [if_neg (by omega)]
      refine ⟨h.mode, h.reload, h.least, hp, ?_, ?_⟩
      · exact (decide_eq_true hnext).symm
      · exact congrArg some (by rw [if_pos hnext]; omega)
    · -- the first half is over
      rw [if_pos (by omega)]
      refine ⟨h.mode, h.reload, h.least, hp, (decide_eq_false hnext).symm, ?_⟩
      exact congrArg some (by rw [if_neg hnext, half, Bool.not_true, if_neg (by decide)]; omega)
  · have hout : c.out = false := h.out.trans (decide_eq_false hhigh)
    have hnext : ¬p + 1 < (n + 1) / 2 := by omega
    rw [if_neg hhigh, hout, if_neg (by omega)]
    refine ⟨⟨h.mode, h.reload, h.least, hp, ?_, ?_⟩, rfl⟩
    · exact (decide_eq_false hnext).symm
    · exact congrArg some (by rw [if_neg hnext]; omega)

/-- The last cycle. -/
theorem Wave.last (h : c.Wave n p) (hp : p + 1 = n) : c.cycle.Wave n 0 ∧ c.rises = true := by
  have hcycle := cycle_squareWave h.mode h.reload h.counter
  have hleast := h.least
  have hlow : ¬p < (n + 1) / 2 := by omega
  have hout : c.out = false := h.out.trans (decide_eq_false hlow)
  have hfirst : 0 < (n + 1) / 2 := by omega
  rw [rises, hcycle, if_neg hlow, hout, if_pos (by omega)]
  refine ⟨⟨h.mode, h.reload, hleast, by omega, (decide_eq_true hfirst).symm, ?_⟩, rfl⟩
  exact congrArg some (by rw [if_pos hfirst, half, Bool.not_false, if_pos rfl, Nat.sub_zero])

/-- **A square wave rises** once for each period. -/
theorem edges_squareWave (k : ℕ) : ∀ {c : Channel} {n p : ℕ}, c.Wave n p →
    c.edges k = (p + k) / n := by
  induction k with
  | zero => exact fun h => (Nat.div_eq_of_lt h.lt).symm
  | succ k ih =>
    intro c n p h
    rw [edges]
    by_cases hp : p + 1 < n
    · obtain ⟨hwave, hrises⟩ := h.cycle hp
      rw [hrises, if_neg Bool.false_ne_true, Nat.zero_add, ih hwave, Nat.add_assoc, Nat.add_comm 1]
    · have hlast : p + 1 = n := by
        have hlt := h.lt
        omega
      obtain ⟨hwave, hrises⟩ := h.last hlast
      have hpos : 0 < n := Nat.zero_lt_of_lt h.lt
      rw [hrises, if_pos rfl, ih hwave, Nat.zero_add, show p + (k + 1) = k + n by omega,
        Nat.add_div_right k hpos, Nat.add_comm]

end Channel

end Pit8254
