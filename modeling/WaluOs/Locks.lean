import WaluOs.Modifiers
import WaluOs.Scancodes

/-!
# Locks and the presses of their keys

`kbd_update_state` toggles a bit of `kbd_locks` at every make code of the lock's key. A
keyboard sends make codes for as long as a key is held, and the handler knows which of them
are repeats (`event.repeat`), but the toggle does not look. So the bit is the parity of the
make codes, and that of the physical presses only as long as no lock key is held long enough
to be repeated.
-/

namespace WaluOs

/-! ## Locks -/

/-- The locks, each with one key that toggles it. -/
inductive Lock : Type where
  | lockCaps | lockNum | lockScroll
  deriving DecidableEq, Repr

/-- The key that toggles the lock. -/
def Lock.key : Lock → KeyCode
  | .lockCaps => .keyCapslock
  | .lockNum => .keyNumlock
  | .lockScroll => .keyScrolllock

/-- The bit of `kbd_locks`. -/
def Lock.bit : Lock → UInt8
  | .lockCaps => kbdLockCaps
  | .lockNum => kbdLockNum
  | .lockScroll => kbdLockScroll

/-- The key actions that a stream of scancodes is decoded to, from `keyboard_init` on. -/
def decoded (scancodes : List UInt8) : List KeyAction :=
  (Mealy.run Decoder.step machineStart.1 scancodes).2

/-- The physical presses of a key: its make codes while it is up. -/
def physicalPresses (key : KeyCode) (actions : List KeyAction) : ℕ :=
  (List.range actions.length).countP fun i =>
    actions[i]? == some ⟨key, false⟩ && !heldAfter (actions.take i) key

/-- The scancode completes a make code of a key that is already down. A keyboard sends these while
a key is held, and they are no presses. -/
structure TypematicRepeat (key : KeyCode) (before : List UInt8) (scancode : UInt8) : Prop where
  /-- a make code -/
  make : decoded (before ++ [scancode]) = decoded before ++ [⟨key, false⟩]
  /-- of a key that is down -/
  held : heldAfter (decoded before) key = true

/-! ## Bits -/

theorem Lock.bit_ne_zero (lock : Lock) : lock.bit ≠ 0 := by
  cases lock <;> decide

/-- The mask has one bit. -/
theorem Lock.and_cases (lock : Lock) (x : UInt8) :
    x &&& lock.bit = 0 ∨ x &&& lock.bit = lock.bit := by
  obtain ⟨i, hi⟩ : ∃ i, lock.bit.toBitVec = BitVec.twoPow 8 i := by
    cases lock
    · exact ⟨0, rfl⟩
    · exact ⟨1, rfl⟩
    · exact ⟨2, rfl⟩
  have hand := BitVec.and_twoPow x.toBitVec i
  rw [← hi] at hand
  split at hand
  · exact Or.inr (UInt8.toBitVec_inj.mp hand)
  · exact Or.inl (UInt8.toBitVec_inj.mp hand)

/-- Toggling it. -/
theorem Lock.toggle_iff (lock : Lock) (x : UInt8) :
    (x ^^^ lock.bit) &&& lock.bit ≠ 0 ↔ ¬x &&& lock.bit ≠ 0 := by
  rw [xor_and_self]
  rcases lock.and_cases x with hclear | hset
  · rw [hclear, UInt8.zero_xor]
    exact iff_of_true lock.bit_ne_zero fun hne => hne rfl
  · rw [hset, UInt8.xor_self]
    exact iff_of_false (fun hne => hne rfl) fun hnot => hnot lock.bit_ne_zero

theorem lockBit_key (lock : Lock) : lockBit lock.key = lock.bit := by
  cases lock <;> rfl

/-- No other key has the bit. -/
theorem lockBit_other {lock : Lock} {key : KeyCode} (h : key ≠ lock.key) :
    lockBit key &&& lock.bit = 0 := by
  cases lock <;> cases key <;> first | rfl | exact absurd rfl h

/-! ## One key action -/

/-- One more action is one more press, if it is one. -/
theorem physicalPresses_snoc (key : KeyCode) (actions : List KeyAction) (a : KeyAction) :
    physicalPresses key (actions ++ [a]) = physicalPresses key actions +
      if a = ⟨key, false⟩ ∧ heldAfter actions key = false then 1 else 0 := by
  rw [physicalPresses, List.length_append, List.length_singleton, List.range_succ,
    List.countP_append, List.countP_singleton, List.getElem?_concat_length, List.take_left]
  congr 1
  · refine List.countP_congr fun i hi => ?_
    have hlt := List.mem_range.mp hi
    rw [List.getElem?_append_left hlt, List.take_append_of_le_length hlt.le]
  · simp

/-- The bit is the parity of the presses. -/
def LockRight (lock : Lock) (s : KeyState) (actions : List KeyAction) : Prop :=
  s.locks &&& lock.bit ≠ 0 ↔ physicalPresses lock.key actions % 2 = 1

/-- **One key action** keeps it so, unless it is a repeat of the lock's key. -/
theorem LockRight.snoc {lock : Lock} {s : KeyState} {actions : List KeyAction}
    (h : LockRight lock s actions) (a : KeyAction) :
    LockRight lock (s.update a) (actions ++ [a]) ↔
      ¬(a = ⟨lock.key, false⟩ ∧ heldAfter actions lock.key = true) := by
  rw [LockRight] at h
  rw [LockRight, physicalPresses_snoc]
  generalize physicalPresses lock.key actions = n at h ⊢
  by_cases hmake : a = ⟨lock.key, false⟩
  · have htoggle : (s.update a).locks &&& lock.bit ≠ 0 ↔ ¬s.locks &&& lock.bit ≠ 0 := by
      rw [← lock.toggle_iff, hmake, ← lockBit_key]
      exact Iff.rfl
    rw [htoggle, h]
    cases hheld : heldAfter actions lock.key with
    | true =>
      have hparity : ¬(¬n % 2 = 1 ↔ n % 2 = 1) := not_iff_self
      simpa [hmake] using hparity
    | false =>
      have hparity : ¬n % 2 = 1 ↔ (n + 1) % 2 = 1 := by omega
      simpa [hmake] using hparity
  · have hsame : (s.update a).locks &&& lock.bit = s.locks &&& lock.bit := by
      obtain ⟨keycode, released⟩ := a
      cases released with
      | true => rfl
      | false =>
        have hother : keycode ≠ lock.key := fun heq => hmake (heq ▸ rfl)
        exact xor_and_of_disjoint s.locks (lockBit_other hother)
    rw [hsame, h]
    simp [hmake]

/-! ## The driver -/

/-- What the driver's keys are after a stream. -/
theorem scancodeRun_keys (k : Kbd) (scancodes : List UInt8) :
    (scancodeRun k scancodes).machine.2 =
      (Mealy.run KeyState.press machineStart.2 (decoded scancodes)).1 := by
  rw [(scancodeRun_follows k scancodes).1, keyboardStep, machineStart, Mealy.run_comp]
  rfl

/-- A scancode is decoded to at most one action. -/
theorem decoded_snoc (scancodes : List UInt8) (scancode : UInt8) :
    decoded (scancodes ++ [scancode]) = decoded scancodes ∨
      ∃ a, decoded (scancodes ++ [scancode]) = decoded scancodes ++ [a] := by
  rw [decoded, Mealy.run_append, Mealy.run_singleton]
  rcases Decoder.step_cases (Mealy.run Decoder.step machineStart.1 scancodes).1 scancode with
    hnone | ⟨a, hone⟩
  · rw [hnone]
    exact Or.inl (List.append_nil _)
  · rw [hone]
    exact Or.inr ⟨a, rfl⟩

/-- The bit of `kbd_locks` is the parity of the physical presses of the lock's key: on after the
first, off after the second, however long each of them is held. -/
def LockTracks (lock : Lock) (k : Kbd) (scancodes : List UInt8) : Prop :=
  (scancodeRun k scancodes).kbdLocks &&& lock.bit ≠ 0 ↔
    physicalPresses lock.key (decoded scancodes) % 2 = 1

/-- One scancode. -/
theorem LockTracks.snoc {lock : Lock} {k : Kbd} {scancodes : List UInt8}
    (h : LockTracks lock k scancodes) (scancode : UInt8) :
    LockTracks lock k (scancodes ++ [scancode]) ↔
      ¬TypematicRepeat lock.key scancodes scancode := by
  have hright : ∀ xs, LockTracks lock k xs ↔
      LockRight lock (Mealy.run KeyState.press machineStart.2 (decoded xs)).1 (decoded xs) := by
    intro xs
    rw [← scancodeRun_keys k xs]
    exact Iff.rfl
  rw [hright] at h ⊢
  rcases decoded_snoc scancodes scancode with hnone | ⟨a, hone⟩
  · rw [hnone]
    refine iff_of_true h fun hrepeat => ?_
    have hlength := congrArg List.length (hnone.symm.trans hrepeat.make)
    simp at hlength
  · rw [hone, Mealy.run_append, Mealy.run_singleton]
    refine (h.snoc a).trans (not_congr ?_)
    constructor
    · rintro ⟨rfl, hheld⟩
      exact ⟨hone, hheld⟩
    · rintro ⟨hmake, hheld⟩
      have hsame := List.append_cancel_left (hone.symm.trans hmake)
      exact ⟨List.head_eq_of_cons_eq hsame, hheld⟩

/-- **The locks track the presses at every point** of a run exactly when no make code of the
lock's key is a repeat. -/
theorem locks_track_iff (k : Kbd) (scancodes : List UInt8) (lock : Lock) :
    (∀ p, p <+: scancodes → LockTracks lock k p) ↔
      ∀ p scancode, p ++ [scancode] <+: scancodes → ¬TypematicRepeat lock.key p scancode := by
  refine Prefixes.forall_iff ?_ (fun p scancode h => h.snoc scancode) scancodes
  refine iff_of_false (fun hne => hne UInt8.zero_and) ?_
  cases lock <;> decide

/-- Caps Lock is held until its make code is repeated: pressed once, it is off. -/
theorem capsLock_repeat : ¬∀ p, p <+: [0x3A, 0x3A] → LockTracks .lockCaps sysZero.kbd p := by
  intro h
  exact absurd ((h [0x3A, 0x3A] (List.prefix_refl _)).mpr (by decide)) (by decide)

end WaluOs
