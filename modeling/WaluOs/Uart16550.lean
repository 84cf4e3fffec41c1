import Mathlib.Algebra.Group.Nat.Defs
import Mathlib.Data.List.Basic
import Mathlib.Logic.Function.Iterate

/-!
# The transmitter of a 16550

A byte that is written to the data port waits until the shift register is free, and is then sent
as a frame: how, and for how long, is settled when it is begun. A byte that is written while
there is no room is lost, or another one for it.

`onLine` are the frames that are sent or cannot be stopped any more. Time adds none and takes none
away (`run_onLine`), and after enough of it all of them are on the wire (`run_wire`).
-/

namespace Uart16550

/-! ## The device -/

/-- A frame: a byte with its start, parity and stop bits. How it looks on the line is in it, since
the settings may be changed before the next one. -/
structure Frame : Type where
  /-- the word -/
  byte : UInt8
  /-- a bit takes 16 cycles for each -/
  divisor : ℕ
  /-- the lower bits of the line control register -/
  format : UInt8
  deriving DecidableEq, Repr

/-- What is set once. A byte that is sent does not change any of these. -/
structure Settings : Type where
  /-- interrupts -/
  ier : UInt8
  /-- line control -/
  lcr : UInt8
  /-- modem control -/
  mcr : UInt8
  /-- the divisor latch -/
  divisorLow : UInt8
  /-- its other half -/
  divisorHigh : UInt8
  /-- bytes can wait in a queue of 16 -/
  fifoOn : Bool
  deriving DecidableEq, Repr

/-- The transmitter. A byte goes from `waiting` to `shift`, and from there to `wire` when its
frame is over. -/
structure Uart extends Settings where
  /-- the bytes that wait -/
  waiting : List UInt8
  /-- the frame that is sent, with the cycles left -/
  shift : Option (Frame × ℕ)
  /-- the frames that were sent -/
  wire : List Frame
  deriving DecidableEq, Repr

/-- The number of bits of a word. -/
def wordBits (format : UInt8) : ℕ := 5 + (format &&& 3).toNat

/-- The halves of bits of a frame: a start bit, a word, a parity bit, and up to two stop bits. -/
def halfBits (format : UInt8) : ℕ :=
  2 + 2 * wordBits format + (if format &&& 8 = 0 then 0 else 2) +
    if format &&& 4 = 0 then 2 else if wordBits format = 5 then 3 else 4

/-- How long a frame takes. -/
def Frame.cycles (f : Frame) : ℕ := 8 * f.divisor * halfBits f.format

/-- The frame of a byte. -/
def Settings.frame (s : Settings) (byte : UInt8) : Frame :=
  ⟨UInt8.ofNat (byte.toNat % 2 ^ wordBits s.lcr), s.divisorHigh.toNat * 256 + s.divisorLow.toNat,
    s.lcr &&& 0x3F⟩

/-- The first two registers are the divisor latch. -/
def Settings.Latch (s : Settings) : Prop := s.lcr &&& 0x80 ≠ 0

instance (s : Settings) : Decidable s.Latch := inferInstanceAs (Decidable (_ ≠ _))

/-- Nothing comes out, but in again. -/
def Settings.Loop (s : Settings) : Prop := s.mcr &&& 0x10 ≠ 0

instance (s : Settings) : Decidable s.Loop := inferInstanceAs (Decidable (_ ≠ _))

/-- A register is written, as far as it is a setting. -/
def Settings.write (s : Settings) (register : ℕ) (value : UInt8) : Settings :=
  match register with
  | 0 => if s.Latch then { s with divisorLow := value } else s
  | 1 => if s.Latch then { s with divisorHigh := value } else { s with ier := value &&& 0x0F }
  | 2 => { s with fifoOn := value &&& 1 ≠ 0 }
  | 3 => { s with lcr := value }
  | 4 => { s with mcr := value &&& 0x1F }
  | _ => s

/-- How long the frames take, whatever bytes are in them. -/
def Settings.frameCycles (s : Settings) : ℕ := (s.frame 0).cycles

namespace Uart

/-- The next frame is begun. -/
def load (u : Uart) : Uart :=
  match u.waiting with
  | [] => { u with shift := none }
  | byte :: rest =>
    { u with waiting := rest, shift := some (u.frame byte, (u.frame byte).cycles) }

/-- A frame has been sent. -/
def finish (u : Uart) (f : Frame) : Uart :=
  { u with wire := if u.Loop then u.wire else u.wire ++ [f] }

/-- A cycle. -/
def tick (u : Uart) : Uart :=
  match u.shift with
  | none => u.load
  | some (f, n) => if 1 < n then { u with shift := some (f, n - 1) } else (u.finish f).load

/-- Some cycles, one after the other. -/
def run (n : ℕ) : Uart → Uart := tick^[n]

/-- The line status register, as far as it says something of the transmitter. -/
def lineStatus (u : Uart) : UInt8 :=
  (if u.waiting = [] then 0x20 else 0) ||| if u.waiting = [] ∧ u.shift = none then 0x40 else 0

/-- The bytes that wait when a register has been written. -/
def waitingAfter (u : Uart) (register : ℕ) (value : UInt8) : List UInt8 :=
  match register with
  | 0 =>
    if u.Latch then u.waiting
    else if u.fifoOn then if u.waiting.length < 16 then u.waiting ++ [value] else u.waiting
    -- without the queue there is room for one byte
    else [value]
  | 2 =>
    -- the queue is switched, or emptied
    if decide (value &&& 1 ≠ 0) ≠ u.fifoOn ∨ value &&& 5 = 5 then [] else u.waiting
  | _ => u.waiting

/-- A register is written. -/
def write (u : Uart) (register : ℕ) (value : UInt8) : Uart :=
  { u with
    toSettings := u.toSettings.write register value
    waiting := u.waitingAfter register value }

/-! ## Time -/

/-- The frames that are sent or will be. The bytes that wait are counted with the settings of now,
which holds as long as nobody changes these. -/
def onLine (u : Uart) : List Frame :=
  u.wire ++ u.shift.toList.map Prod.fst ++ u.waiting.map u.frame

/-- The cycles that the frame takes that is sent, and one. After so many the shift register has
taken the next byte, if there is one. -/
def left (u : Uart) : ℕ := u.shift.elim 0 fun s => s.2 + 1

/-- A bound on the cycles until nothing is left. -/
def pending (u : Uart) : ℕ := u.left + u.waiting.length * (u.frameCycles + 2)

variable {u : Uart}

@[simp] theorem toSettings_load (u : Uart) : u.load.toSettings = u.toSettings := by
  rw [load]
  cases u.waiting <;> rfl

@[simp] theorem toSettings_tick (u : Uart) : u.tick.toSettings = u.toSettings := by
  rw [tick]
  split
  · exact toSettings_load u
  · split
    · rfl
    · exact toSettings_load _

theorem onLine_load (u : Uart) : u.load.onLine = u.wire ++ u.waiting.map u.frame := by
  rw [load]
  cases hwaiting : u.waiting with
  | nil => simp [onLine]
  | cons byte rest => simp [onLine]

/-- **A cycle** sends no other frames than those that were on the line. -/
theorem onLine_tick (h : ¬u.Loop) : u.tick.onLine = u.onLine := by
  rw [tick]
  cases hshift : u.shift with
  | none =>
    dsimp only
    rw [onLine_load, onLine, hshift, Option.toList_none, List.map_nil, List.append_nil]
  | some s =>
    dsimp only
    split
    · simp [onLine, hshift]
    · have hfinish : (u.finish s.1).wire = u.wire ++ [s.1] := if_neg h
      rw [onLine_load, hfinish, onLine, hshift]
      rfl

/-- What is still to be done gets less. -/
theorem pending_tick (u : Uart) : u.tick.pending ≤ u.pending - 1 := by
  have hload : ∀ v : Uart, v.load.pending ≤ v.waiting.length * (v.frameCycles + 2) - 1 := by
    intro v
    rw [load]
    cases hwaiting : v.waiting with
    | nil => simp [pending, left]
    | cons byte rest =>
      have hcycles : (v.frame byte).cycles = v.frameCycles := rfl
      simp only [pending, left, Option.elim_some, List.length_cons, Nat.succ_mul, hcycles]
      omega
  rw [tick]
  cases hshift : u.shift with
  | none => exact Nat.le_trans (hload u) (Nat.sub_le_sub_right (Nat.le_add_left _ _) 1)
  | some s =>
    dsimp only
    split
    · simp only [pending, left, hshift, Option.elim_some]
      omega
    · exact Nat.le_trans (hload (u.finish s.1)) (Nat.sub_le_sub_right (Nat.le_add_left _ _) 1)

theorem left_tick {bound : ℕ} (hleft : u.left ≤ bound)
    (hframe : u.frameCycles < bound) : u.tick.left ≤ bound := by
  have hload : ∀ v : Uart, v.toSettings = u.toSettings → v.load.left ≤ bound := by
    intro v hv
    rw [load]
    cases v.waiting with
    | nil => exact Nat.zero_le bound
    | cons byte rest =>
      rw [hv]
      exact hframe
  rw [tick]
  cases hshift : u.shift with
  | none => exact hload u rfl
  | some s =>
    dsimp only
    split
    · simp only [left, hshift, Option.elim_some] at hleft ⊢
      omega
    · exact hload _ rfl

theorem length_waiting_tick (u : Uart) : u.tick.waiting.length ≤ u.waiting.length := by
  have hload : ∀ v : Uart, v.load.waiting.length ≤ v.waiting.length := by
    intro v
    rw [load]
    cases hwaiting : v.waiting with
    | nil => exact Nat.le_refl 0
    | cons byte rest => exact Nat.le_succ rest.length
  rw [tick]
  split
  · exact hload u
  · split
    · exact Nat.le_refl _
    · exact hload (u.finish _)

/-! ## More of it -/

theorem run_succ (n : ℕ) (u : Uart) : u.run (n + 1) = (u.run n).tick :=
  Function.iterate_succ_apply' tick n u

@[simp] theorem toSettings_run (n : ℕ) (u : Uart) : (u.run n).toSettings = u.toSettings := by
  induction n with
  | zero => rfl
  | succ n ih => rw [run_succ, toSettings_tick, ih]

/-- **Time changes nothing on the line.** -/
theorem run_onLine (h : ¬u.Loop) (n : ℕ) : (u.run n).onLine = u.onLine := by
  induction n with
  | zero => rfl
  | succ n ih =>
    have hloop : ¬(u.run n).Loop := by rwa [toSettings_run]
    rw [run_succ, onLine_tick hloop, ih]

theorem pending_run (n : ℕ) (u : Uart) : (u.run n).pending ≤ u.pending - n := by
  induction n with
  | zero => exact Nat.le_refl _
  | succ n ih =>
    rw [run_succ]
    have hstep := pending_tick (u.run n)
    omega

theorem left_run {bound : ℕ} (hleft : u.left ≤ bound)
    (hframe : u.frameCycles < bound) (n : ℕ) : (u.run n).left ≤ bound := by
  induction n with
  | zero => exact hleft
  | succ n ih =>
    rw [run_succ]
    exact left_tick ih (by rwa [toSettings_run])

theorem length_waiting_run (n : ℕ) (u : Uart) :
    (u.run n).waiting.length ≤ u.waiting.length := by
  induction n with
  | zero => exact Nat.le_refl _
  | succ n ih =>
    rw [run_succ]
    exact Nat.le_trans (length_waiting_tick _) ih

theorem waiting_eq_nil_of_pending (h : u.pending = 0) : u.waiting = [] := by
  cases hwaiting : u.waiting with
  | nil => rfl
  | cons byte rest =>
    rw [pending, hwaiting, List.length_cons, Nat.succ_mul] at h
    omega

/-- The bit that says that there is room. -/
theorem lineStatus_and_iff (u : Uart) : u.lineStatus &&& 0x20 ≠ 0 ↔ u.waiting = [] := by
  rw [lineStatus]
  by_cases h : u.waiting = []
  · rw [if_pos h]
    by_cases hshift : u.shift = none
    · rw [if_pos ⟨h, hshift⟩]
      exact iff_of_true (by decide) h
    · rw [if_neg fun hboth => hshift hboth.2]
      exact iff_of_true (by decide) h
  · rw [if_neg h, if_neg fun hboth => h hboth.1]
    exact iff_of_false (by decide) h

/-- **All is on the wire** after enough cycles. -/
theorem run_wire (h : ¬u.Loop) {n : ℕ} (hn : u.pending ≤ n) : (u.run n).wire = u.onLine := by
  have hpending : (u.run n).pending = 0 := by
    have hle := pending_run n u
    omega
  have hshift : (u.run n).shift = none := by
    cases hshift : (u.run n).shift with
    | none => rfl
    | some s =>
      rw [pending, left, hshift, Option.elim_some] at hpending
      omega
  rw [← run_onLine h n, onLine, hshift, waiting_eq_nil_of_pending hpending]
  simp

end Uart

end Uart16550
