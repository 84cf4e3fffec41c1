import WaluOs.KeyboardDecode
import WaluOs.Prefixes
import WaluOs.Shell

/-!
# Modifiers and the keys that are down

`kbd_modifiers` has one bit for both keys of a pair, and `kbd_set_modifier_bit` clears it
when either of them comes up. So the bit says that a key of its group is down only as
long as no key of a pair comes up while the other one is down, in whatever order they
went down, and whether or not the one that comes up was down at all.
-/

namespace WaluOs

/-! ## Bits -/

section Bits

variable {x b m : UInt8}

/-- Bytes with the same bits. -/
theorem eq_of_getLsbD {x y : UInt8}
    (h : ∀ i < 8, x.toBitVec.getLsbD i = y.toBitVec.getLsbD i) : x = y :=
  UInt8.toBitVec_inj.mp (BitVec.eq_of_getLsbD_eq h)

/-- Two masks without a common bit. -/
theorem getLsbD_of_disjoint (h : b &&& m = 0) (i : ℕ) (hb : b.toBitVec.getLsbD i = true) :
    m.toBitVec.getLsbD i = false := by
  have hi := congrArg (fun y : UInt8 => y.toBitVec.getLsbD i) h
  simpa [hb] using hi

theorem or_and_of_disjoint (x : UInt8) (h : b &&& m = 0) : (x ||| b) &&& m = x &&& m := by
  refine eq_of_getLsbD fun i _ => ?_
  have hi := getLsbD_of_disjoint h i
  cases hb : b.toBitVec.getLsbD i <;> simp_all

theorem and_not_and_of_disjoint (x : UInt8) (h : b &&& m = 0) :
    (x &&& ~~~b) &&& m = x &&& m := by
  refine eq_of_getLsbD fun i _ => ?_
  have hi := getLsbD_of_disjoint h i
  cases hb : b.toBitVec.getLsbD i <;> simp_all

theorem or_and_self (x m : UInt8) : (x ||| m) &&& m = m := by
  refine eq_of_getLsbD fun i _ => ?_
  simp_all

theorem and_not_and_self (x m : UInt8) : (x &&& ~~~m) &&& m = 0 := by
  refine eq_of_getLsbD fun i _ => ?_
  simp_all

theorem xor_and_of_disjoint (x : UInt8) (h : b &&& m = 0) : (x ^^^ b) &&& m = x &&& m := by
  refine eq_of_getLsbD fun i _ => ?_
  have hi := getLsbD_of_disjoint h i
  cases hb : b.toBitVec.getLsbD i <;> simp_all

theorem xor_and_self (x m : UInt8) : (x ^^^ m) &&& m = (x &&& m) ^^^ m := by
  refine eq_of_getLsbD fun i _ => ?_
  cases hm : m.toBitVec.getLsbD i <;> simp_all

end Bits

/-! ## Groups -/

/-- The modifiers, each with a group of one or two keys. -/
inductive Modifier : Type where
  | modShift | modCtrl | modAlt | modAltgr | modMeta
  deriving DecidableEq, Repr

/-- The bit of `kbd_modifiers`. -/
def Modifier.bit : Modifier → UInt8
  | .modShift => kbdModShift
  | .modCtrl => kbdModCtrl
  | .modAlt => kbdModAlt
  | .modAltgr => kbdModAltgr
  | .modMeta => kbdModMeta

/-- The keys of its group. -/
def Modifier.keys : Modifier → List KeyCode
  | .modShift => [.keyLeftshift, .keyRightshift]
  | .modCtrl => [.keyLeftctrl, .keyRightctrl]
  | .modAlt => [.keyLeftalt]
  | .modAltgr => [.keyRightalt]
  | .modMeta => [.keyLeftmeta, .keyRightmeta]

theorem Modifier.bit_ne_zero (m : Modifier) : m.bit ≠ 0 := by
  cases m <;> decide

/-- A key of the group has the bit. -/
theorem modifierBit_mem {m : Modifier} {key : KeyCode} (h : key ∈ m.keys) :
    modifierBit key = m.bit := by
  have hall : ∀ m : Modifier, m.keys.all (fun key => modifierBit key == m.bit) = true := by
    intro m
    cases m <;> rfl
  exact eq_of_beq (List.all_eq_true.mp (hall m) key h)

/-- No other key has. -/
theorem modifierBit_not_mem {m : Modifier} {key : KeyCode} (h : key ∉ m.keys) :
    modifierBit key &&& m.bit = 0 := by
  cases m <;> cases key <;> first | rfl | exact absurd (by decide) h

/-! ## One key action -/

/-- Each modifier's bit says whether a key of its group is down. -/
def KeyState.Matches (s : KeyState) : Prop :=
  ∀ m : Modifier, s.modifiers &&& m.bit ≠ 0 ↔ ∃ key ∈ m.keys, s.down key = true

/-- A key of a group comes up while another one of the group is down. The modifier is then still
held, and the driver takes it for released. -/
structure KeyState.Splits (s : KeyState) (a : KeyAction) (m : Modifier) : Prop where
  /-- a break code -/
  released : a.released = true
  /-- of a key of the group -/
  mem : a.keycode ∈ m.keys
  /-- and the other key -/
  other : ∃ key ∈ m.keys, key ≠ a.keycode ∧ s.down key = true

variable {s : KeyState}

/-- Afterwards the bit is wrong. -/
theorem KeyState.Splits.not_matches {a : KeyAction} {m : Modifier} (h : s.Splits a m) :
    ¬(s.update a).Matches := by
  intro hmatch
  obtain ⟨key, hkey, hne, hdown⟩ := h.other
  refine (hmatch m).mpr ⟨key, hkey, ?_⟩ ?_
  · exact (Function.update_of_ne hne _ _).trans hdown
  · rw [update, if_pos h.released, modifierBit_mem h.mem]
    exact and_not_and_self s.modifiers m.bit

/-- A key of another group. -/
theorem KeyState.update_other {a : KeyAction} {m : Modifier} (h : a.keycode ∉ m.keys) :
    (s.update a).modifiers &&& m.bit = s.modifiers &&& m.bit ∧
      ∀ key ∈ m.keys, (s.update a).down key = s.down key := by
  have hdisjoint := modifierBit_not_mem h
  have hdown : ∀ key ∈ m.keys, (s.update a).down key = s.down key := by
    intro key hkey
    have hne : key ≠ a.keycode := fun heq => h (heq ▸ hkey)
    exact Function.update_of_ne hne _ _
  refine ⟨?_, hdown⟩
  rw [update]
  split
  · exact and_not_and_of_disjoint s.modifiers hdisjoint
  · exact or_and_of_disjoint s.modifiers hdisjoint

/-- **One key action** keeps the bits right exactly when it splits no pair. -/
theorem KeyState.update_matches (h : s.Matches) (a : KeyAction) :
    (s.update a).Matches ↔ ∀ m, ¬s.Splits a m := by
  refine ⟨fun hmatch m hsplit => hsplit.not_matches hmatch, fun hsplit m => ?_⟩
  by_cases hmem : a.keycode ∈ m.keys
  · cases hreleased : a.released with
    | false =>
      have hbit : (s.update a).modifiers &&& m.bit = m.bit := by
        rw [update, hreleased, if_neg Bool.false_ne_true, modifierBit_mem hmem]
        exact or_and_self s.modifiers m.bit
      have hdown : (s.update a).down a.keycode = true := by
        rw [update, hreleased]
        exact Function.update_self ..
      rw [hbit]
      exact iff_of_true m.bit_ne_zero ⟨a.keycode, hmem, hdown⟩
    | true =>
      have hbit : (s.update a).modifiers &&& m.bit = 0 := by
        rw [update, hreleased, if_pos rfl, modifierBit_mem hmem]
        exact and_not_and_self s.modifiers m.bit
      rw [hbit]
      refine iff_of_false (fun hne => hne rfl) ?_
      rintro ⟨key, hkey, hdown⟩
      -- If the other key of the pair is still down, the action splits the pair.
      by_cases hsame : key = a.keycode
      · rw [hsame, update, hreleased] at hdown
        exact Bool.false_ne_true ((Function.update_self ..).symm.trans hdown)
      · refine hsplit m ⟨hreleased, hmem, key, hkey, hsame, ?_⟩
        exact (Function.update_of_ne hsame _ _).symm.trans hdown
  · obtain ⟨hbit, hdown⟩ := update_other (s := s) hmem
    rw [hbit, h m]
    refine exists_congr fun key => and_congr_right fun hkey => ?_
    rw [hdown key hkey]

/-! ## The driver -/

/-- `kbd_modifiers` says which modifiers are down according to `kbd_key_down`. A modifier is down
if any of its keys is, which is how every keyboard is understood. -/
def ModifiersMatch (k : Kbd) : Prop :=
  ∀ m : Modifier, k.kbdModifiers &&& m.bit ≠ 0 ↔ ∃ key ∈ m.keys, k.kbdKeyDown key = true

/-- The scancode completes the break code of one key of a pair, and the other one is down. -/
def SplitsPair (k : Kbd) (scancode : UInt8) : Prop :=
  ∃ a ∈ (k.machine.1.step scancode).2, ∃ m, k.machine.2.Splits a m

/-- One scancode. -/
theorem keyboardOnIrq_matches {k : Kbd} (h : ModifiersMatch k) (scancode : UInt8) :
    ModifiersMatch (keyboardOnIrq k scancode) ↔ ¬SplitsPair k scancode := by
  have hstate := keyboardOnIrq_follows.state k scancode
  have hmatch : ModifiersMatch (keyboardOnIrq k scancode) ↔
      (keyboardStep k.machine scancode).1.2.Matches := by
    rw [← hstate]
    rfl
  rw [hmatch, keyboardStep, Mealy.comp, SplitsPair]
  rcases Decoder.step_cases k.machine.1 scancode with hnone | ⟨a, hone⟩
  · rw [hnone]
    refine iff_of_true h ?_
    rintro ⟨a, ha, -⟩
    exact absurd ha List.not_mem_nil
  · rw [hone, Mealy.run_singleton]
    refine (KeyState.update_matches (s := k.machine.2) h a).trans ⟨?_, ?_⟩
    · rintro hnot ⟨b, hb, m, hsplit⟩
      rw [List.mem_singleton.mp hb] at hsplit
      exact hnot m hsplit
    · exact fun hnot m hsplit => hnot ⟨a, List.mem_singleton_self a, m, hsplit⟩

/-- **The modifiers match the keys at every point** of a run exactly when no key of a pair
comes up while the other one is down. -/
theorem modifiers_match_iff (k : Kbd) (scancodes : List UInt8) :
    (∀ p, p <+: scancodes → ModifiersMatch (scancodeRun k p)) ↔
      ∀ p scancode, p ++ [scancode] <+: scancodes → ¬SplitsPair (scancodeRun k p) scancode := by
  refine Prefixes.forall_iff (fun m => ?_) (fun p scancode h => ?_) scancodes
  · exact iff_of_false (fun hne => hne UInt8.zero_and) fun ⟨key, _, hdown⟩ =>
      Bool.false_ne_true hdown
  · have hstep : scancodeRun k (p ++ [scancode]) = keyboardOnIrq (scancodeRun k p) scancode :=
      scancodeRun_append k p [scancode]
    rw [hstep]
    exact keyboardOnIrq_matches h scancode

/-- Left Shift and right Shift go down, and left Shift comes up. -/
def leftShiftUp : List UInt8 := [0x2A, 0x36, 0xAA]

/-- Right Shift is still down, and the bit is clear. -/
theorem leftShiftUp_clears :
    ¬∀ p, p <+: leftShiftUp → ModifiersMatch (scancodeRun sysZero.kbd p) := by
  intro h
  have hshift := h leftShiftUp (List.prefix_refl _) .modShift
  exact absurd (hshift.mpr ⟨.keyRightshift, by decide, by decide⟩) (by decide)

end WaluOs
