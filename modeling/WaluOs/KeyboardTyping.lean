import WaluOs.MainLoop
import WaluOs.Modifiers
import WaluOs.Scancodes

/-!
# What can be typed

The table of the driver has a key for every character from Ctrl+A to `~`, and no key makes
another byte: NUL, DEL and everything from `0x80` on stay out of the queue of the keyboard. That
holds at any time (`scannedBytes_typeable`): whatever was sent before, a prefix or the front of a
Pause sequence, keys that were never released and locks included, all strings over the other
bytes can be typed next. A few codes that do nothing finish what is pending, the modifiers are
released, and each character has its stroke (`charStroke`), which depends on Caps Lock alone.
-/

namespace WaluOs

/-! ## The bytes of a key -/

/-- What a key that is pressed puts out. -/
def pressBytes (key : KeyCode) (modifiers locks : UInt8) : List UInt8 :=
  inputBytes ⟨key, kbdKeycodeToUnicode key modifiers locks, modifiers, locks, true, false⟩

theorem inputBytes_event (s : KeyState) (a : KeyAction) :
    inputBytes (s.event a) =
      if a.released then []
      else pressBytes a.keycode (s.update a).modifiers (s.update a).locks := by
  obtain ⟨key, released⟩ := a
  cases released <;> rfl

theorem and_and_of_and_eq {x m b : UInt8} (h : m &&& b = b) : x &&& m &&& b = x &&& b := by
  rw [UInt8.and_assoc, h]

/-- The character of a key depends on Shift, Ctrl, Caps Lock and Num Lock. -/
theorem kbdKeycodeToUnicode_masked (key : KeyCode) (modifiers locks : UInt8) :
    kbdKeycodeToUnicode key modifiers locks =
      kbdKeycodeToUnicode key (modifiers &&& 0x03) (locks &&& 0x03) := by
  have hshift : modifiers &&& 0x03 &&& kbdModShift = modifiers &&& kbdModShift :=
    and_and_of_and_eq rfl
  have hctrl : modifiers &&& 0x03 &&& kbdModCtrl = modifiers &&& kbdModCtrl :=
    and_and_of_and_eq rfl
  have hcaps : locks &&& 0x03 &&& kbdLockCaps = locks &&& kbdLockCaps := and_and_of_and_eq rfl
  have hnum : locks &&& 0x03 &&& kbdLockNum = locks &&& kbdLockNum := and_and_of_and_eq rfl
  simp only [kbdKeycodeToUnicode, kbdApplyAlpha, hshift, hctrl, hcaps, hnum]

/-- It is an ASCII character, and not DEL. -/
theorem kbdKeycodeToUnicode_le (key : KeyCode) (modifiers locks : UInt8) :
    kbdKeycodeToUnicode key modifiers locks ≤ 0x7E := by
  have hall : ∀ m < 4, ∀ l < 4,
      kbdKeycodeToUnicode key (UInt8.ofNat m) (UInt8.ofNat l) ≤ 0x7E := by
    cases key <;> decide +kernel
  have hmasked : ∀ x : UInt8, (x &&& 0x03).toNat < 4 := fun x => Nat.lt_succ_of_le Nat.and_le_right
  have hone := hall _ (hmasked modifiers) _ (hmasked locks)
  rwa [UInt8.ofNat_toNat, UInt8.ofNat_toNat, ← kbdKeycodeToUnicode_masked] at hone

/-- Of the modifiers and locks Meta and Scroll Lock make no difference. -/
theorem pressBytes_masked (key : KeyCode) (modifiers locks : UInt8) :
    pressBytes key modifiers locks = pressBytes key (modifiers &&& 0x0F) (locks &&& 0x03) := by
  have halt : modifiers &&& 0x0F &&& (kbdModAlt ||| kbdModAltgr) =
      modifiers &&& (kbdModAlt ||| kbdModAltgr) := and_and_of_and_eq rfl
  have hunicode : kbdKeycodeToUnicode key (modifiers &&& 0x0F) (locks &&& 0x03) =
      kbdKeycodeToUnicode key modifiers locks := by
    rw [kbdKeycodeToUnicode_masked, kbdKeycodeToUnicode_masked key modifiers locks,
      and_and_of_and_eq (b := 0x03) rfl, and_and_of_and_eq (b := 0x03) rfl]
  rw [pressBytes, pressBytes, hunicode, inputBytes, inputBytes]
  simp only [halt]

theorem kbdSpecialSequence_spec (key : KeyCode) :
    (kbdSpecialSequence key).length ≤ 5 ∧ ∀ b ∈ kbdSpecialSequence key, 0x01 ≤ b ∧ b ≤ 0x7E := by
  cases key <;> decide +kernel

/-- At most five bytes, and none of them is NUL, DEL or above. -/
theorem pressBytes_spec (key : KeyCode) (modifiers locks : UInt8) :
    (pressBytes key modifiers locks).length ≤ 5 ∧
      ∀ b ∈ pressBytes key modifiers locks, 0x01 ≤ b ∧ b ≤ 0x7E := by
  have hle := kbdKeycodeToUnicode_le key modifiers locks
  have hpress : pressBytes key modifiers locks =
      if kbdKeycodeToUnicode key modifiers locks ≠ 0 then
        (if modifiers &&& (kbdModAlt ||| kbdModAltgr) ≠ 0 then [0x1B] else []) ++
          utf8Bytes (kbdKeycodeToUnicode key modifiers locks)
      else kbdSpecialSequence key := rfl
  rw [hpress]
  split
  · rename_i hne
    have hchar : 0x01 ≤ UInt8.ofNat (kbdKeycodeToUnicode key modifiers locks) ∧
        UInt8.ofNat (kbdKeycodeToUnicode key modifiers locks) ≤ 0x7E := by
      have hnat : (UInt8.ofNat (kbdKeycodeToUnicode key modifiers locks)).toNat =
          kbdKeycodeToUnicode key modifiers locks := by
        rw [UInt8.toNat_ofNat']
        omega
      rw [UInt8.le_iff_toNat_le, UInt8.le_iff_toNat_le, hnat]
      exact ⟨Nat.pos_of_ne_zero hne, hle⟩
    rw [utf8Bytes, if_pos (hle.trans (by decide))]
    split
    · refine ⟨(by decide : 2 ≤ 5), List.forall_mem_cons.mpr ⟨by decide, ?_⟩⟩
      exact List.forall_mem_singleton.mpr hchar
    · exact ⟨(by decide : 1 ≤ 5), List.forall_mem_singleton.mpr hchar⟩
  · exact kbdSpecialSequence_spec key

/-- A scancode puts out what one key does, or nothing. -/
theorem keyboardStep_bytes (m : Decoder × KeyState) (scancode : UInt8) :
    (keyboardStep m scancode).2.flatMap inputBytes = [] ∨
      ∃ key modifiers locks,
        (keyboardStep m scancode).2.flatMap inputBytes = pressBytes key modifiers locks := by
  rw [keyboardStep, Mealy.comp]
  rcases Decoder.step_cases m.1 scancode with h | ⟨a, h⟩
  · rw [h]
    exact Or.inl rfl
  · rw [h, Mealy.run_singleton, KeyState.press, List.flatMap_singleton, inputBytes_event]
    split_ifs
    · exact Or.inl rfl
    · exact Or.inr ⟨_, _, _, rfl⟩

theorem irqBytes_length_le (k : Kbd) (scancode : UInt8) : (irqBytes k scancode).length ≤ 5 := by
  rw [irqBytes]
  rcases keyboardStep_bytes k.machine scancode with h | ⟨key, modifiers, locks, h⟩
  · rw [h]
    exact Nat.zero_le 5
  · rw [h]
    exact (pressBytes_spec key modifiers locks).1

/-- No stream puts out another byte. -/
theorem keyboardRun_range (m : Decoder × KeyState) (scancodes : List UInt8) :
    ∀ b ∈ (Mealy.run keyboardStep m scancodes).2.flatMap inputBytes, 0x01 ≤ b ∧ b ≤ 0x7E := by
  have hevents : ∀ e ∈ (Mealy.run keyboardStep m scancodes).2,
      ∀ b ∈ inputBytes e, 0x01 ≤ b ∧ b ≤ 0x7E := by
    refine Mealy.run_outputs (fun m scancode e he b hb => ?_) scancodes
    have hmem : b ∈ (keyboardStep m scancode).2.flatMap inputBytes :=
      List.mem_flatMap.mpr ⟨e, he, hb⟩
    rcases keyboardStep_bytes m scancode with h | ⟨key, modifiers, locks, h⟩
    · rw [h] at hmem
      exact absurd hmem List.not_mem_nil
    · rw [h] at hmem
      exact (pressBytes_spec key modifiers locks).2 b hmem
  intro b hb
  obtain ⟨e, he, hmem⟩ := List.mem_flatMap.mp hb
  exact hevents e he b hmem

/-! ## Strokes -/

/-- A key that makes a character, and the key that is held down for it. This is how a person types
one character: press what is to be held, press and release the key, and release what was held. -/
structure Stroke : Type where
  /-- Shift, Ctrl or nothing -/
  held : Option KeyCode
  /-- the key -/
  key : KeyCode
  deriving DecidableEq, Repr

namespace Stroke

/-- With Ctrl. -/
def control (key : KeyCode) : Stroke := ⟨some .keyLeftctrl, key⟩

/-- With Shift, or alone. -/
def shifted (p : Bool × KeyCode) : Stroke := ⟨if p.1 then some .keyLeftshift else none, p.2⟩

/-- The modifiers while the key is down. -/
def modifiers (stroke : Stroke) : UInt8 := (stroke.held.map modifierBit).getD 0

/-- What the keys do. -/
def actions (stroke : Stroke) : List KeyAction :=
  stroke.held.toList.map (⟨·, false⟩) ++ [⟨stroke.key, false⟩, ⟨stroke.key, true⟩] ++
    stroke.held.toList.map (⟨·, true⟩)

/-- The keys have codes; what is held is Shift or Ctrl, and the other key is no modifier and no
lock. Then the stroke leaves the keyboard as it was before it. -/
structure Proper (stroke : Stroke) : Prop where
  /-- what is held -/
  held : stroke.held ∈ [none, some .keyLeftshift, some .keyLeftctrl]
  /-- the key has a code -/
  code : (setOneCode stroke.key).isSome = true
  /-- it is no modifier -/
  modifierBit : modifierBit stroke.key = 0
  /-- it is no lock -/
  lockBit : lockBit stroke.key = 0

instance (stroke : Stroke) : Decidable stroke.Proper :=
  decidable_of_iff (stroke.held ∈ [none, some .keyLeftshift, some .keyLeftctrl] ∧
      (setOneCode stroke.key).isSome = true ∧ WaluOs.modifierBit stroke.key = 0 ∧
      WaluOs.lockBit stroke.key = 0)
    ⟨fun h => ⟨h.1, h.2.1, h.2.2.1, h.2.2.2⟩, fun h => ⟨h.held, h.code, h.modifierBit, h.lockBit⟩⟩

end Stroke

/-- The letters. -/
def letterKeys : List KeyCode :=
  [.keyA, .keyB, .keyC, .keyD, .keyE, .keyF, .keyG, .keyH, .keyI, .keyJ, .keyK, .keyL, .keyM,
   .keyN, .keyO, .keyP, .keyQ, .keyR, .keyS, .keyT, .keyU, .keyV, .keyW, .keyX, .keyY, .keyZ]

/-- From space to `@`, with Shift or without. -/
def signKeys : List (Bool × KeyCode) :=
  [(false, .keySpace), (true, .key1), (true, .keyApostrophe), (true, .key3), (true, .key4),
   (true, .key5), (true, .key7), (false, .keyApostrophe), (true, .key9), (true, .key0),
   (true, .key8), (true, .keyEqual), (false, .keyComma), (false, .keyMinus), (false, .keyDot),
   (false, .keySlash), (false, .key0), (false, .key1), (false, .key2), (false, .key3),
   (false, .key4), (false, .key5), (false, .key6), (false, .key7), (false, .key8), (false, .key9),
   (true, .keySemicolon), (false, .keySemicolon), (true, .keyComma), (false, .keyEqual),
   (true, .keyDot), (true, .keySlash), (true, .key2)]

/-- Between the capital letters and the others. -/
def bracketKeys : List (Bool × KeyCode) :=
  [(false, .keyLeftbrace), (false, .keyBackslash), (false, .keyRightbrace), (true, .key6),
   (true, .keyMinus), (false, .keyGrave)]

/-- After the letters. -/
def braceKeys : List (Bool × KeyCode) :=
  [(true, .keyLeftbrace), (true, .keyBackslash), (true, .keyRightbrace), (true, .keyGrave)]

/-- What Ctrl is held for. -/
def controlKeys : List KeyCode :=
  letterKeys ++ [.keyLeftbrace, .keyBackslash, .keyRightbrace, .key6, .keyMinus]

/-- A stroke for each character in turn, from Ctrl+A on. -/
def charStrokes (caps : Bool) : List Stroke :=
  controlKeys.map .control ++
    (signKeys ++ letterKeys.map (!caps, ·) ++ bracketKeys ++ letterKeys.map (caps, ·) ++
      braceKeys).map .shifted

/-- Caps Lock is on. -/
def capsOn (locks : UInt8) : Bool := locks &&& kbdLockCaps != 0

theorem charStrokes_proper (caps : Bool) : ∀ stroke ∈ charStrokes caps, stroke.Proper := by
  cases caps <;> decide +kernel

/-- They make the characters. -/
theorem charStrokes_bytes (locks : UInt8) :
    (charStrokes (capsOn locks)).map (fun stroke => pressBytes stroke.key stroke.modifiers locks) =
      (List.range 126).map fun n => [UInt8.ofNat (n + 1)] := by
  have hall : ∀ l < 4, (charStrokes (capsOn (UInt8.ofNat l))).map
      (fun stroke => pressBytes stroke.key stroke.modifiers (UInt8.ofNat l)) =
        (List.range 126).map fun n => [UInt8.ofNat (n + 1)] := by decide +kernel
  have hone := hall (locks &&& 0x03).toNat (Nat.lt_succ_of_le Nat.and_le_right)
  have hcaps : capsOn (locks &&& 0x03) = capsOn locks :=
    congrArg (· != 0) (and_and_of_and_eq rfl)
  rw [UInt8.ofNat_toNat, hcaps] at hone
  rw [← hone]
  have hlocks : locks &&& 0x03 &&& 0x03 = locks &&& 0x03 := and_and_of_and_eq rfl
  refine List.map_congr_left fun stroke _ => Eq.symm ?_
  rw [pressBytes_masked, hlocks, ← pressBytes_masked]

/-- The stroke of a character. -/
theorem exists_stroke {b : UInt8} (hfirst : 0x01 ≤ b) (hlast : b ≤ 0x7E) (locks : UInt8) :
    ∃ stroke : Stroke, stroke.Proper ∧ pressBytes stroke.key stroke.modifiers locks = [b] := by
  have hpos : 1 ≤ b.toNat := UInt8.le_iff_toNat_le.mp hfirst
  have hle : b.toNat ≤ 126 := UInt8.le_iff_toNat_le.mp hlast
  have hb : UInt8.ofNat (b.toNat - 1 + 1) = b := by
    rw [Nat.sub_add_cancel hpos, UInt8.ofNat_toNat]
  have hlt : b.toNat - 1 < 126 := by omega
  have hmem : [b] ∈ (charStrokes (capsOn locks)).map
      fun stroke => pressBytes stroke.key stroke.modifiers locks := by
    rw [charStrokes_bytes]
    exact List.mem_map.mpr ⟨b.toNat - 1, List.mem_range.mpr hlt, by rw [hb]⟩
  obtain ⟨stroke, hstroke, hbytes⟩ := List.mem_map.mp hmem
  exact ⟨stroke, charStrokes_proper _ stroke hstroke, hbytes⟩

/-! ## From rest -/

/-- No modifier that changes characters is held. -/
def KeyState.Bare (s : KeyState) : Prop := s.modifiers &&& 0x0F = 0

theorem or_and_distrib (x y m : UInt8) : (x ||| y) &&& m = x &&& m ||| y &&& m :=
  UInt8.toBitVec_inj.mp (BitVec.and_or_distrib_right ..)

section

variable {s : KeyState} {key : KeyCode}

/-- A key that is no modifier and no lock changes neither. -/
theorem KeyState.update_plain (hmodifier : modifierBit key = 0) (hlock : lockBit key = 0)
    (released : Bool) :
    (s.update ⟨key, released⟩).modifiers = s.modifiers ∧
      (s.update ⟨key, released⟩).locks = s.locks := by
  cases released <;> simp [KeyState.update, hmodifier, hlock]

/-- It goes down and comes up. -/
theorem KeyState.run_tap (hmodifier : modifierBit key = 0) (hlock : lockBit key = 0) :
    (Mealy.run KeyState.press s [⟨key, false⟩, ⟨key, true⟩]).1.modifiers = s.modifiers ∧
      (Mealy.run KeyState.press s [⟨key, false⟩, ⟨key, true⟩]).2.flatMap inputBytes =
        pressBytes key s.modifiers s.locks := by
  have hmake := KeyState.update_plain (s := s) hmodifier hlock false
  have hbreak := KeyState.update_plain (s := s.update ⟨key, false⟩) hmodifier hlock true
  rw [Mealy.run_cons, Mealy.run_singleton]
  refine ⟨hbreak.1.trans hmake.1, ?_⟩
  rw [KeyState.press, KeyState.press, List.singleton_append, List.flatMap_cons,
    List.flatMap_singleton, inputBytes_event, inputBytes_event, hmake.1, hmake.2]
  exact List.append_nil _

/-- Shift or Ctrl goes down: nothing is put out. -/
theorem KeyState.press_held (hkey : key = .keyLeftshift ∨ key = .keyLeftctrl) :
    (s.update ⟨key, false⟩).modifiers = s.modifiers ||| modifierBit key ∧
      (s.update ⟨key, false⟩).locks = s.locks ∧ inputBytes (s.event ⟨key, false⟩) = [] := by
  rw [inputBytes_event]
  rcases hkey with rfl | rfl <;> exact ⟨rfl, UInt8.xor_zero, rfl⟩

/-- And comes up again. -/
theorem KeyState.release_held (hs : s.modifiers &&& 0x0F = modifierBit key) :
    (s.update ⟨key, true⟩).Bare := by
  change s.modifiers &&& ~~~modifierBit key &&& 0x0F = 0
  rw [UInt8.and_assoc, UInt8.and_comm (~~~modifierBit key), ← UInt8.and_assoc, hs,
    UInt8.and_not_self]

/-- **A stroke** makes its character, and leaves no modifier held. The locks are what they were,
since none of its keys is one. -/
theorem Stroke.run_actions {stroke : Stroke} (h : stroke.Proper) (hs : s.Bare) :
    (Mealy.run KeyState.press s stroke.actions).1.Bare ∧
      (Mealy.run KeyState.press s stroke.actions).2.flatMap inputBytes =
        pressBytes stroke.key stroke.modifiers s.locks := by
  obtain ⟨held, key⟩ := stroke
  obtain ⟨hheld, -, hmodifier, hlock⟩ := h
  cases held with
  | none =>
    obtain ⟨hmodifiers, hbytes⟩ := KeyState.run_tap (s := s) hmodifier hlock
    refine ⟨(congrArg (· &&& 0x0F) hmodifiers).trans hs, hbytes.trans ?_⟩
    rw [pressBytes_masked, hs]
    exact (pressBytes_masked key 0 s.locks).symm
  | some held =>
    have hkey : held = .keyLeftshift ∨ held = .keyLeftctrl := by simpa using hheld
    obtain ⟨hdown, hlocks, hnone⟩ := KeyState.press_held (s := s) hkey
    obtain ⟨hmodifiers, hbytes⟩ :=
      KeyState.run_tap (s := s.update ⟨held, false⟩) hmodifier hlock
    have hactions : Stroke.actions ⟨some held, key⟩ =
        ⟨held, false⟩ :: ([⟨key, false⟩, ⟨key, true⟩] ++ [⟨held, true⟩]) := rfl
    have hbit : modifierBit held &&& 0x0F = modifierBit held := by
      rcases hkey with rfl | rfl <;> rfl
    have hmasked : (s.modifiers ||| modifierBit held) &&& 0x0F = modifierBit held := by
      rw [or_and_distrib, hs, hbit, UInt8.zero_or]
    rw [hactions, Mealy.run_cons, Mealy.run_append, Mealy.run_singleton]
    refine ⟨KeyState.release_held ?_, ?_⟩
    · rw [KeyState.press, hmodifiers, hdown, hmasked]
    · dsimp only [KeyState.press]
      rw [List.singleton_append, List.flatMap_cons, hnone, List.nil_append, List.flatMap_append,
        hbytes, List.flatMap_singleton, inputBytes_event, if_pos rfl, List.append_nil, hdown,
        hlocks, pressBytes_masked, hmasked]
      exact (hbit ▸ pressBytes_masked key (modifierBit held) s.locks).symm

end

/-! ## Scancodes -/

/-- What the keyboard sends for these. -/
def sentKeys (actions : List KeyAction) : List UInt8 := (actions.map Sent.key).flatMap Sent.encode

/-- It is decoded into the key actions. -/
theorem keyboardRun_sentKeys {actions : List KeyAction}
    (hcodes : ∀ a ∈ actions, (setOneCode a.keycode).isSome = true) (s : KeyState) :
    Mealy.run keyboardStep (⟨false, 0⟩, s) (sentKeys actions) =
      ((⟨false, 0⟩, (Mealy.run KeyState.press s actions).1),
        (Mealy.run KeyState.press s actions).2) := by
  have hvalid : ∀ x ∈ actions.map Sent.key, x.Valid := by
    intro x hx
    obtain ⟨a, ha, rfl⟩ := List.mem_map.mp hx
    exact hcodes a ha
  have hactions : (actions.map Sent.key).flatMap Sent.actions = actions := by
    rw [List.flatMap_map]
    exact List.flatMap_singleton' actions
  rw [sentKeys, Mealy.run_comp, decoder_inverts hvalid, hactions]

/-- Nothing is pending, and no modifier is held. -/
def HandsOff (m : Decoder × KeyState) : Prop := m.1 = ⟨false, 0⟩ ∧ m.2.Bare

/-- Codes that no table has finish what is pending. -/
theorem Decoder.run_flush (d : Decoder) :
    Mealy.run Decoder.step d (List.replicate (d.skip + 1) 0x00) = (⟨false, 0⟩, []) := by
  obtain ⟨extended, skip⟩ := d
  induction skip with
  | zero => cases extended <;> rfl
  | succ skip ih =>
    have hstep : Decoder.step ⟨extended, skip + 1⟩ 0x00 = (⟨extended, skip⟩, []) := rfl
    rw [List.replicate_succ, Mealy.run_cons, hstep, ih, List.nil_append]

/-- **From any state** of the driver some scancodes lead there, and put nothing out. -/
theorem exists_handsOff (m : Decoder × KeyState) :
    ∃ scancodes, HandsOff (Mealy.run keyboardStep m scancodes).1 ∧
      (Mealy.run keyboardStep m scancodes).2.flatMap inputBytes = [] := by
  obtain ⟨d, s⟩ := m
  let releases : List KeyAction :=
    [⟨.keyLeftshift, true⟩, ⟨.keyLeftctrl, true⟩, ⟨.keyLeftalt, true⟩, ⟨.keyRightalt, true⟩]
  have hflush : Mealy.run keyboardStep (d, s) (List.replicate (d.skip + 1) 0x00) =
      ((⟨false, 0⟩, s), []) := by
    rw [Mealy.run_comp, Decoder.run_flush, Mealy.run_nil]
  have hrelease := @keyboardRun_sentKeys releases (by decide) s
  refine ⟨List.replicate (d.skip + 1) 0x00 ++ sentKeys releases, ?_⟩
  rw [Mealy.run_append, hflush, hrelease, List.nil_append]
  refine ⟨⟨rfl, ?_⟩, rfl⟩
  change s.modifiers &&& ~~~kbdModShift &&& ~~~kbdModCtrl &&& ~~~kbdModAlt &&& ~~~kbdModAltgr &&&
    0x0F = 0
  rw [UInt8.and_assoc, UInt8.and_assoc, UInt8.and_assoc, UInt8.and_assoc]
  exact UInt8.and_zero

/-- From there each character can be typed. -/
theorem HandsOff.exists_char {m : Decoder × KeyState} (h : HandsOff m) {b : UInt8}
    (hfirst : 0x01 ≤ b) (hlast : b ≤ 0x7E) :
    ∃ scancodes, HandsOff (Mealy.run keyboardStep m scancodes).1 ∧
      (Mealy.run keyboardStep m scancodes).2.flatMap inputBytes = [b] := by
  obtain ⟨d, s⟩ := m
  obtain ⟨rfl, hbare⟩ := h
  obtain ⟨stroke, hproper, hbytes⟩ := exists_stroke hfirst hlast s.locks
  obtain ⟨hafter, hchar⟩ := stroke.run_actions hproper hbare
  have hheld : ∀ held ∈ stroke.held, (setOneCode held).isSome = true := by
    have hall : ∀ held ∈ [none, some KeyCode.keyLeftshift, some .keyLeftctrl],
        ∀ key ∈ held, (setOneCode key).isSome = true := by decide
    exact hall stroke.held hproper.held
  have hcodes : ∀ a ∈ stroke.actions, (setOneCode a.keycode).isSome = true := by
    intro a ha
    simp only [Stroke.actions, List.mem_append, List.mem_map, List.mem_cons, Option.mem_toList,
      List.not_mem_nil, or_false] at ha
    rcases ha with (⟨held, hmem, rfl⟩ | rfl | rfl) | ⟨held, hmem, rfl⟩
    · exact hheld held hmem
    · exact hproper.code
    · exact hproper.code
    · exact hheld held hmem
  refine ⟨sentKeys stroke.actions, ?_⟩
  rw [keyboardRun_sentKeys hcodes]
  exact ⟨⟨rfl, hafter⟩, hchar.trans hbytes⟩

/-- Any of these strings can be typed, in whatever state the driver is. -/
theorem exists_typed (m : Decoder × KeyState) {bytes : List UInt8}
    (hbytes : ∀ b ∈ bytes, 0x01 ≤ b ∧ b ≤ 0x7E) :
    ∃ scancodes, (Mealy.run keyboardStep m scancodes).2.flatMap inputBytes = bytes := by
  obtain ⟨reset, hrest, hnone⟩ := exists_handsOff m
  have hchars : ∀ b ∈ bytes, ∀ m, HandsOff m → ∃ scancodes,
      HandsOff (Mealy.run keyboardStep m scancodes).1 ∧
        (Mealy.run keyboardStep m scancodes).2.flatMap inputBytes = [b] :=
    fun b hb m hm => hm.exists_char (hbytes b hb).1 (hbytes b hb).2
  obtain ⟨scancodes, -, htyped⟩ := Mealy.exists_run hchars hrest
  refine ⟨reset ++ scancodes, ?_⟩
  rw [Mealy.run_append, List.flatMap_append, hnone, htyped, List.nil_append,
    List.flatMap_singleton']

/-- **Whatever was sent before**, what can be typed next are the strings over the bytes from
`0x01` to `0x7E`, and no others. -/
theorem scannedBytes_typeable (before bytes : List UInt8) :
    (∃ scancodes, scannedBytes (before ++ scancodes) = scannedBytes before ++ bytes) ↔
      ∀ b ∈ bytes, 0x01 ≤ b ∧ b ≤ 0x7E := by
  have hnext : ∀ scancodes, scannedBytes (before ++ scancodes) = scannedBytes before ++
      (Mealy.run keyboardStep (Mealy.run keyboardStep machineStart before).1
        scancodes).2.flatMap inputBytes := by
    intro scancodes
    rw [scannedBytes, Mealy.run_append, List.flatMap_append, scannedBytes]
  constructor
  · rintro ⟨scancodes, h⟩
    rw [hnext, List.append_right_inj] at h
    rw [← h]
    exact keyboardRun_range _ scancodes
  · intro h
    obtain ⟨scancodes, htyped⟩ := exists_typed (Mealy.run keyboardStep machineStart before).1 h
    exact ⟨scancodes, by rw [hnext, htyped]⟩

end WaluOs
