import WaluOs.ConsolePage
import WaluOs.KeyboardDecode
import WaluOs.Shell
import WaluOs.Utf8

/-!
# UTF-8 from the keyboard to the console

The keyboard driver encodes a scalar value, and the console decodes what it is sent
byte by byte. What the console is asked to show is read off its trace: `Console.shown`
lists the calls of `raw_put_visible` and `console_emit_codepoint`, and drawing adds
nothing to it.

`Decoding` is the console in the middle of a sequence. A lead byte and the bytes that
it announces lead through it and out again (`consolePutc_multibyte`), whatever their
bits are; which of them are encodings is a matter of `Utf8` alone.
-/

namespace WaluOs

open Loops Utf8

/-! ## What a console is asked to show -/

/-- A call of `raw_put_visible` or `console_emit_codepoint`. -/
def ConsoleEvent.isShown : ConsoleEvent → Bool
  | .rawPutVisible _ => true
  | .emitCodepoint _ => true
  | _ => false

/-- The calls of `raw_put_visible` and `console_emit_codepoint` so far, oldest first. They say
which characters the console took the bytes for, also where the screen shows a question mark for
several. -/
def Display.shown (d : Display) : List ConsoleEvent := d.trace.filter ConsoleEvent.isShown

variable {d : Display} {c : Console}

theorem Display.shown_note_access (d : Display) {e : ConsoleEvent} (he : e.isShown = false) :
    (d.note e).shown = d.shown := by
  rw [shown, note, List.filter_append, List.filter_singleton, he]
  exact List.append_nil _

theorem Display.shown_note_call (d : Display) {e : ConsoleEvent} (he : e.isShown = true) :
    (d.note e).shown = d.shown ++ [e] := by
  rw [shown, note, List.filter_append, List.filter_singleton, he]
  rfl

/-- A loop whose rounds show nothing. -/
theorem forRange_shown {first last : ℕ} {body : Display → ℕ → Display}
    (h : ∀ t i, (body t i).shown = t.shown) (d : Display) :
    (forRange first last body d).shown = d.shown := by
  let Same (t : Display) : Prop := t.shown = d.shown
  have hstart : Same d := rfl
  exact forRange_invariant hstart fun i t _ _ ht => (h t i).trans ht

theorem fbPlot_shown (d : Display) (x y : ℕ) (rgb : UInt32) : (fbPlot d x y rgb).shown = d.shown := by
  rw [fbPlot]
  split
  · rfl
  · exact d.shown_note_access (e := .pixel _) rfl

theorem fbDrawCell_shown (d : Display) (row col : ℕ) (c color : UInt8) :
    (fbDrawCell d row col c color).shown = d.shown := by
  rw [fbDrawCell]
  split
  · rfl
  · dsimp only
    split
    · rfl
    · exact forRange_shown (fun t gy => forRange_shown (fun u gx => fbPlot_shown u _ _ _) t) d

theorem vgaStore_shown (d : Display) (i : ℕ) (value : UInt16) : (vgaStore d i value).shown = d.shown :=
  d.shown_note_access (e := .vgaCell i) rfl

theorem fbStoreCell_shown (d : Display) (row col : ℕ) (c : UInt8) :
    (fbStoreCell d row col c).shown = d.shown :=
  d.shown_note_access (e := .fbCell row col) rfl

theorem fbStoreColor_shown (d : Display) (row col : ℕ) (color : UInt8) :
    (fbStoreColor d row col color).shown = d.shown :=
  d.shown_note_access (e := .fbCellColor row col) rfl

theorem fbRedrawFull_shown (d : Display) : (fbRedrawFull d).shown = d.shown := by
  refine forRange_shown (fun t y => forRange_shown (fun u x => ?_) t) d
  rw [fbDrawCell_shown, Display.shown_note_access _ (e := .fbCellColor y x) rfl,
    Display.shown_note_access _ (e := .fbCell y x) rfl]

theorem backendPutCell_shown (d : Display) (row col : ℕ) (c color : UInt8) :
    (backendPutCell d row col c color).shown = d.shown := by
  rw [backendPutCell]
  split
  · exact d.shown_note_access rfl
  · split
    · exact vgaStore_shown d _ _
    · rw [fbDrawCell_shown, fbStoreColor_shown, fbStoreCell_shown]

theorem backendScrollUp_shown (d : Display) (color : UInt8) :
    (backendScrollUp d color).shown = d.shown := by
  have hcopy : ∀ (t : Display) (y : ℕ), (fbCopyColors (fbCopyCells t y) y).shown = t.shown := by
    intro t y
    have hcells : (fbCopyCells t y).shown = t.shown := forRange_shown (fun u x =>
      (fbStoreCell_shown _ _ _ _).trans (u.shown_note_access (e := .fbCell y x) rfl)) t
    have hcolors : (fbCopyColors (fbCopyCells t y) y).shown = (fbCopyCells t y).shown :=
      forRange_shown (fun u x => (fbStoreColor_shown _ _ _ _).trans
        (u.shown_note_access (e := .fbCellColor y x) rfl)) _
    exact hcolors.trans hcells
  rw [backendScrollUp]
  split
  · have hrow : ∀ (t : Display) (y : ℕ),
        (forRange 0 t.termCols (fun d x => vgaCopyCell d y x) t).shown = t.shown := fun t y =>
      forRange_shown (fun u x => (vgaStore_shown _ _ _).trans
        (u.shown_note_access (e := .vgaCell (y * u.termCols + x)) rfl)) t
    exact (forRange_shown (fun t x => vgaStore_shown t _ _) _).trans (forRange_shown hrow d)
  · rw [fbRedrawFull_shown, forRange_shown fun t x =>
      (fbStoreColor_shown _ _ _ _).trans (fbStoreCell_shown t _ x 0x20)]
    exact forRange_shown hcopy d

/-! ## Showing a character -/

/-- The state of the parsers is the same: what comes next is read in the same way. -/
structure SameParser (t u : Term) : Prop where
  state : u.ansiParserState = t.ansiParserState
  codepoint : u.utf8Codepoint = t.utf8Codepoint
  needed : u.utf8Needed = t.utf8Needed
  total : u.utf8Total = t.utf8Total

theorem SameParser.trans {t u v : Term} (h : SameParser t u) (h' : SameParser u v) :
    SameParser t v :=
  ⟨h'.state.trans h.state, h'.codepoint.trans h.codepoint, h'.needed.trans h.needed,
    h'.total.trans h.total⟩

/-- `c` became `c'` by printing `events`, and the parsers did not notice. -/
structure Prints (c c' : Console) (events : List ConsoleEvent) : Prop where
  shown : c'.shown = c.shown ++ events
  parser : SameParser c.toTerm c'.toTerm

theorem scrollIfNeeded_prints (c : Console) : Prints c (scrollIfNeeded c) [] := by
  rw [scrollIfNeeded]
  split
  · exact ⟨(List.append_nil _).symm, rfl, rfl, rfl, rfl⟩
  · exact ⟨(backendScrollUp_shown _ _).trans (List.append_nil _).symm, rfl, rfl, rfl, rfl⟩

theorem advanceCursor_prints (c : Console) : Prints c (advanceCursor c) [] := by
  rw [advanceCursor]
  split <;> exact ⟨(List.append_nil _).symm, rfl, rfl, rfl, rfl⟩

theorem Prints.trans {c₁ c₂ c₃ : Console} {xs ys : List ConsoleEvent} (h : Prints c₁ c₂ xs)
    (h' : Prints c₂ c₃ ys) : Prints c₁ c₃ (xs ++ ys) :=
  ⟨by rw [h'.shown, h.shown, List.append_assoc], h.parser.trans h'.parser⟩

theorem rawPutVisible_prints (c : Console) (byte : UInt8) :
    Prints c (rawPutVisible c byte) [.rawPutVisible byte] := by
  have hput : Prints c (c.draw fun d =>
      backendPutCell (d.note (.rawPutVisible byte)) c.cursorRow c.cursorCol byte
        (currentVgaColor c.toTerm)) [.rawPutVisible byte] :=
    ⟨(backendPutCell_shown _ _ _ _ _).trans (c.toDisplay.shown_note_call rfl), rfl, rfl, rfl, rfl⟩
  exact (hput.trans (advanceCursor_prints _)).trans (scrollIfNeeded_prints _)

/-- What `console_emit_codepoint` does for any code point but zero. -/
def codepointEvents (cp : UInt32) : List ConsoleEvent :=
  [.emitCodepoint cp, .rawPutVisible (if cp ≤ 0x7F then cp.toUInt8 else 0x3F)]

theorem consoleEmitCodepoint_prints (c : Console) {cp : UInt32} (hcp : cp ≠ 0) :
    Prints c (consoleEmitCodepoint c cp) (codepointEvents cp) := by
  have hnote : Prints c (c.draw fun d => d.note (.emitCodepoint cp)) [.emitCodepoint cp] :=
    ⟨c.toDisplay.shown_note_call rfl, rfl, rfl, rfl, rfl⟩
  rw [consoleEmitCodepoint, codepointEvents]
  rw [if_neg hcp]
  split
  · exact hnote.trans (rawPutVisible_prints _ _)
  · exact hnote.trans (rawPutVisible_prints _ _)

/-! ## Decoding -/

/-- The console waits for the next character, with no sequence open. -/
structure Waiting (c : Console) (events : List ConsoleEvent) : Prop where
  ground : c.ansiParserState = .ground
  needed : c.utf8Needed = 0
  shown : c.shown = events

/-- The console has read the beginning of a sequence: `needed` more bytes are to come of
the `total` that were announced, and `v` is the value so far. -/
structure Decoding (c : Console) (needed total v : ℕ) (events : List ConsoleEvent) : Prop where
  ground : c.ansiParserState = .ground
  needed : c.utf8Needed = UInt8.ofNat needed
  total : c.utf8Total = UInt8.ofNat total
  codepoint : c.utf8Codepoint.toNat = v
  shown : c.shown = events

@[simp] theorem serialWriteChar_toDisplay (c : Console) (byte : UInt8) :
    (serialWriteChar c byte).toDisplay = c.toDisplay := by
  rw [serialWriteChar]
  split <;> rfl

@[simp] theorem serialWriteChar_toTerm (c : Console) (byte : UInt8) :
    (serialWriteChar c byte).toTerm = c.toTerm := by
  rw [serialWriteChar]
  split <;> rfl

/-- In the ground state only a newline is sent twice. -/
theorem consolePutc_ground (hground : c.ansiParserState = .ground) {byte : UInt8}
    (hbyte : byte ≠ 0x0A) :
    consolePutc c byte = consoleHandleGroundByte (serialWriteChar c byte) byte := by
  rw [consolePutc, if_neg hbyte]
  rw [serialWriteChar_toTerm, hground]

theorem consolePutc_high (hground : c.ansiParserState = .ground) {byte : UInt8}
    (hbyte : 0x80 ≤ byte) :
    consolePutc c byte = consoleEmitUtf8Byte (serialWriteChar c byte) byte := by
  have hnewline : byte ≠ 0x0A := by
    rintro rfl
    exact absurd hbyte (by decide)
  have htext : 0x20 ≤ byte := UInt8.le_trans (by decide) hbyte
  rw [consolePutc_ground hground hnewline, consoleHandleGroundByte_text _ htext,
    if_neg (UInt8.not_lt.mpr hbyte)]

/-- The masks of `console_emit_utf8_byte` tell the lead bytes apart. The bits that a mask leaves
are those of the character. -/
theorem lead_masks {lead : UInt8} (hlead : 0xC0 ≤ lead ∧ lead ≤ 0xF7) :
    (lead &&& 0xE0 = 0xC0 ∧ announced lead = 1 ∧ (lead &&& 0x1F).toNat = leadBits lead) ∨
      (lead &&& 0xE0 ≠ 0xC0 ∧ lead &&& 0xF0 = 0xE0 ∧ announced lead = 2 ∧
        (lead &&& 0x0F).toNat = leadBits lead) ∨
      (lead &&& 0xE0 ≠ 0xC0 ∧ lead &&& 0xF0 ≠ 0xE0 ∧ lead &&& 0xF8 = 0xF0 ∧ announced lead = 3 ∧
        (lead &&& 0x07).toNat = leadBits lead) := by
  have htwo : ∀ n < 2 ^ 5, UInt8.ofNat (n + 0xC0) &&& 0xE0 = 0xC0 ∧
      (UInt8.ofNat (n + 0xC0) &&& 0x1F).toNat = n := by decide
  have hthree : ∀ n < 2 ^ 4, UInt8.ofNat (n + 0xE0) &&& 0xE0 ≠ 0xC0 ∧
      UInt8.ofNat (n + 0xE0) &&& 0xF0 = 0xE0 ∧
      (UInt8.ofNat (n + 0xE0) &&& 0x0F).toNat = n := by decide
  have hfour : ∀ n < 2 ^ 3, UInt8.ofNat (n + 0xF0) &&& 0xE0 ≠ 0xC0 ∧
      UInt8.ofNat (n + 0xF0) &&& 0xF0 ≠ 0xE0 ∧ UInt8.ofNat (n + 0xF0) &&& 0xF8 = 0xF0 ∧
      (UInt8.ofNat (n + 0xF0) &&& 0x07).toNat = n := by decide
  obtain ⟨heq, hlt⟩ := lead_eq hlead
  have hkind := announced_mem lead
  simp only [List.mem_cons, List.not_mem_nil, or_false] at hkind
  rcases hkind with hn | hn | hn <;> rw [hn] at heq hlt
  · have h := htwo (leadBits lead) hlt
    have hbyte : UInt8.ofNat (leadBits lead + 0xC0) = lead := heq
    rw [hbyte] at h
    exact Or.inl ⟨h.1, hn, h.2⟩
  · have h := hthree (leadBits lead) hlt
    have hbyte : UInt8.ofNat (leadBits lead + 0xE0) = lead := heq
    rw [hbyte] at h
    exact Or.inr (Or.inl ⟨h.1, h.2.1, hn, h.2.2⟩)
  · have h := hfour (leadBits lead) hlt
    have hbyte : UInt8.ofNat (leadBits lead + 0xF0) = lead := heq
    rw [hbyte] at h
    exact Or.inr (Or.inr ⟨h.1, h.2.1, h.2.2.1, hn, h.2.2.2⟩)

theorem Waiting.serial {events : List ConsoleEvent} (h : Waiting c events) (byte : UInt8) :
    Waiting (serialWriteChar c byte) events := by
  obtain ⟨hground, hneeded, hshown⟩ := h
  refine ⟨?_, ?_, ?_⟩
  · rw [serialWriteChar_toTerm, hground]
  · rw [serialWriteChar_toTerm, hneeded]
  · rw [serialWriteChar_toDisplay, hshown]

theorem Waiting.prints {c' : Console} {events xs : List ConsoleEvent} (h : Waiting c events)
    (hprints : Prints c c' xs) : Waiting c' (events ++ xs) := by
  refine ⟨hprints.parser.state.trans h.ground, hprints.parser.needed.trans h.needed, ?_⟩
  rw [← h.shown]
  exact hprints.shown

/-- A lead byte. -/
theorem Waiting.lead {events : List ConsoleEvent} (h : Waiting c events) {lead : UInt8}
    (hlead : 0xC0 ≤ lead ∧ lead ≤ 0xF7) :
    Decoding (consolePutc c lead) (announced lead) (announced lead) (leadBits lead) events := by
  obtain ⟨hground, hneeded, hshown⟩ := h.serial lead
  rw [consolePutc_high h.ground (UInt8.le_trans (by decide) hlead.1), consoleEmitUtf8Byte,
    if_pos hneeded]
  rcases lead_masks hlead with ⟨htwo, hn, hbits⟩ | ⟨htwo, hthree, hn, hbits⟩ |
    ⟨htwo, hthree, hfour, hn, hbits⟩
  · rw [if_pos htwo, hn]
    exact ⟨hground, rfl, rfl, hbits, hshown⟩
  · rw [if_neg htwo, if_pos hthree, hn]
    exact ⟨hground, rfl, rfl, hbits, hshown⟩
  · rw [if_neg htwo, if_neg hthree, if_pos hfour, hn]
    exact ⟨hground, rfl, rfl, hbits, hshown⟩

/-- Six more bits of a code point. -/
theorem shiftIn_toNat {cp : UInt32} (hcp : cp.toNat < 2 ^ 26) (byte : UInt8) :
    ((cp <<< 6) ||| (byte &&& 0x3F).toUInt32).toNat = cp.toNat * 64 + byte.toNat % 64 := by
  have hlow : (byte &&& 0x3F).toUInt32.toNat = byte.toNat % 64 := by
    rw [UInt8.toNat_toUInt32, UInt8.toNat_and]
    exact Nat.and_two_pow_sub_one_eq_mod byte.toNat 6
  have hhigh : (cp <<< 6).toNat = 2 ^ 6 * cp.toNat := by
    rw [UInt32.toNat_shiftLeft]
    change cp.toNat <<< 6 % 2 ^ 32 = _
    rw [Nat.shiftLeft_eq, Nat.mul_comm]
    exact Nat.mod_eq_of_lt (by omega)
  rw [UInt32.toNat_or, hlow, hhigh, ← Nat.two_pow_add_eq_or_of_lt (Nat.mod_lt _ (by decide))]
  omega

/-- The `valid` of `console_emit_utf8_byte`. -/
theorem utf8Valid_iff {n : ℕ} (hn : n ∈ [1, 2, 3]) (cp : UInt32) :
    utf8Valid (UInt8.ofNat n) cp = true ↔ least n ≤ cp.toNat ∧ cp.toNat.isValidChar := by
  simp only [List.mem_cons, List.not_mem_nil, or_false] at hn
  rcases hn with rfl | rfl | rfl
  all_goals simp [utf8Valid, least, Nat.isValidChar, UInt32.lt_iff_toNat_lt, UInt32.le_iff_toNat_le]
  all_goals omega

theorem continuation_mask {byte : UInt8} (hbyte : IsContinuation byte) : byte &&& 0xC0 = 0x80 := by
  have hall : ∀ n < 64, UInt8.ofNat (n + 0x80) &&& 0xC0 = 0x80 := by decide
  have h := hall (byte.toNat % 64) (Nat.mod_lt _ (by decide))
  rwa [hbyte.eq] at h

/-- The console, when a continuation byte has been taken into account. -/
def shiftIn (c : Console) (byte : UInt8) : Console :=
  c.update fun t =>
    { t with
      utf8Codepoint := (t.utf8Codepoint <<< 6) ||| (byte &&& 0x3F).toUInt32
      utf8Needed := t.utf8Needed - 1 }

theorem Decoding.bits {needed total v : ℕ} {events : List ConsoleEvent}
    (h : Decoding c (needed + 1) total v events) (hv : v < 2 ^ 26) (byte : UInt8) :
    Decoding (shiftIn c byte) needed total (v * 64 + byte.toNat % 64) events := by
  obtain ⟨hground, hneeded, htotal, rfl, hshown⟩ := h
  refine ⟨hground, ?_, htotal, shiftIn_toNat hv byte, hshown⟩
  change c.utf8Needed - 1 = _
  rw [hneeded, UInt8.ofNat_add]
  exact UInt8.add_sub_cancel _ _

theorem Decoding.serial {needed total v : ℕ} {events : List ConsoleEvent}
    (h : Decoding c needed total v events) (byte : UInt8) :
    Decoding (serialWriteChar c byte) needed total v events := by
  obtain ⟨hground, hneeded, htotal, hvalue, hshown⟩ := h
  refine ⟨?_, ?_, ?_, ?_, ?_⟩
  · rw [serialWriteChar_toTerm, hground]
  · rw [serialWriteChar_toTerm, hneeded]
  · rw [serialWriteChar_toTerm, htotal]
  · rw [serialWriteChar_toTerm, hvalue]
  · rw [serialWriteChar_toDisplay, hshown]

/-- A continuation byte. -/
theorem consolePutc_continuation (hground : c.ansiParserState = .ground)
    (hpending : c.utf8Needed ≠ 0) {byte : UInt8} (hbyte : IsContinuation byte) :
    consolePutc c byte =
      if (shiftIn (serialWriteChar c byte) byte).utf8Needed = 0 then
        let c := shiftIn (serialWriteChar c byte) byte
        (if utf8Valid c.utf8Total c.utf8Codepoint then consoleEmitCodepoint c c.utf8Codepoint
          else consoleEmitCodepoint c 0x3F).update fun t =>
            { t with utf8Total := 0, utf8Codepoint := 0 }
      else shiftIn (serialWriteChar c byte) byte := by
  have hserial : (serialWriteChar c byte).utf8Needed ≠ 0 := by
    rw [serialWriteChar_toTerm]
    exact hpending
  rw [consolePutc_high hground hbyte.1, consoleEmitUtf8Byte, if_neg hserial,
    if_neg (not_not_intro (continuation_mask hbyte))]
  rfl

theorem Decoding.pending {needed total v : ℕ} {events : List ConsoleEvent}
    (h : Decoding c (needed + 1) total v events) (hneeded : needed < 3) : c.utf8Needed ≠ 0 := by
  have hall : ∀ n < 3, UInt8.ofNat (n + 1) ≠ 0 := by decide
  rw [h.needed]
  exact hall needed hneeded

/-- A continuation byte that is not the last one. -/
theorem Decoding.more {needed total v : ℕ} {events : List ConsoleEvent}
    (h : Decoding c (needed + 2) total v events) (hneeded : needed < 2) (hv : v < 2 ^ 26)
    {byte : UInt8} (hbyte : IsContinuation byte) :
    Decoding (consolePutc c byte) (needed + 1) total (v * 64 + byte.toNat % 64) events := by
  have hnext := (h.serial byte).bits hv byte
  rw [consolePutc_continuation h.ground (h.pending (Nat.succ_lt_succ hneeded)) hbyte,
    if_neg (hnext.pending (Nat.lt_succ_of_lt hneeded))]
  exact hnext

/-- The calls that end a sequence. -/
def decodedEvents (total v : ℕ) : List ConsoleEvent :=
  if least total ≤ v ∧ v.isValidChar then codepointEvents (UInt32.ofNat v)
  else codepointEvents 0x3F

/-- Whatever is printed for a sequence, the console waits for the next one. -/
theorem Decoding.finish {c' : Console} {total v : ℕ} {events xs : List ConsoleEvent}
    (h : Decoding c 0 total v events) (hprints : Prints c c' xs) :
    Waiting (c'.update fun t => { t with utf8Total := 0, utf8Codepoint := 0 }) (events ++ xs) := by
  have hwaiting := Waiting.prints ⟨h.ground, h.needed, h.shown⟩ hprints
  exact ⟨hwaiting.ground, hwaiting.needed, hwaiting.shown⟩

/-- The last continuation byte. -/
theorem Decoding.last {total v : ℕ} {events : List ConsoleEvent}
    (h : Decoding c 1 total v events) (htotal : total ∈ [1, 2, 3]) (hv : v < 2 ^ 26)
    {byte : UInt8} (hbyte : IsContinuation byte) :
    Waiting (consolePutc c byte)
      (events ++ decodedEvents total (v * 64 + byte.toNat % 64)) := by
  have hnext := (h.serial byte).bits hv byte
  have hdone : (shiftIn (serialWriteChar c byte) byte).utf8Needed = 0 := hnext.needed
  rw [consolePutc_continuation h.ground (h.pending (by decide)) hbyte, if_pos hdone]
  generalize shiftIn (serialWriteChar c byte) byte = s at *
  have hvalid : utf8Valid s.utf8Total s.utf8Codepoint = true ↔
      least total ≤ s.utf8Codepoint.toNat ∧ s.utf8Codepoint.toNat.isValidChar := by
    rw [hnext.total]
    exact utf8Valid_iff htotal _
  dsimp only
  rw [decodedEvents, ← hnext.codepoint, UInt32.ofNat_toNat]
  by_cases hok : utf8Valid s.utf8Total s.utf8Codepoint = true
  -- An overlong zero is not valid, so the code point is not skipped.
  · have hzero : s.utf8Codepoint ≠ 0 := by
      intro hzero
      have hleast := (hvalid.mp hok).1
      rw [hzero] at hleast
      have hpos : ∀ n ∈ [1, 2, 3], ¬least n ≤ 0 := by decide
      exact hpos total htotal hleast
    rw [if_pos hok, if_pos (hvalid.mp hok)]
    exact hnext.finish (consoleEmitCodepoint_prints s hzero)
  · rw [if_neg hok, if_neg (mt hvalid.mpr hok)]
    exact hnext.finish (consoleEmitCodepoint_prints s (by decide))

/-- All continuation bytes of a sequence but the last one. -/
theorem Decoding.upToLast {total : ℕ} {events : List ConsoleEvent} (conts : List UInt8) :
    ∀ {c : Console} {v : ℕ}, Decoding c (conts.length + 1) total v events → conts.length ≤ 2 →
      (v + 1) * 64 ^ conts.length ≤ 2 ^ 26 → (∀ b ∈ conts, IsContinuation b) →
      Decoding (conts.foldl consolePutc c) 1 total (extend v conts) events := by
  induction conts with
  | nil => exact fun h _ _ _ => h
  | cons b conts ih =>
    intro c v h hlen hroom hconts
    obtain ⟨hb, hrest⟩ := List.forall_mem_cons.mp hconts
    -- The bound on the value keeps every shift below 32 bits.
    have hv : v < 2 ^ 26 :=
      (Nat.le_mul_of_pos_right (v + 1) (Nat.pow_pos (by decide))).trans hroom
    exact ih (h.more hlen hv hb) (Nat.le_of_succ_le hlen) ((extend_room v b _).trans hroom) hrest

/-- A whole sequence up to its last byte: nothing has been printed yet. -/
theorem Waiting.upToLast {events : List ConsoleEvent} (h : Waiting c events) {lead last : UInt8}
    {init : List UInt8} (hseq : Multibyte lead (init ++ [last])) :
    Decoding ((lead :: init).foldl consolePutc c) 1 (announced lead) (extend (leadBits lead) init)
      events := by
  have hlen : init.length + 1 = announced lead := by
    rw [← hseq.length, List.length_append, List.length_singleton]
  have hshort : announced lead ≤ 3 := by
    have hall : ∀ n ∈ [1, 2, 3], n ≤ 3 := by decide
    exact hall _ (announced_mem lead)
  have hcapacity := hseq.capacity
  rw [List.length_append, List.length_singleton] at hcapacity
  have hroom : (leadBits lead + 1) * 64 ^ init.length ≤ 2 ^ 26 :=
    calc (leadBits lead + 1) * 64 ^ init.length
        ≤ (leadBits lead + 1) * 64 ^ (init.length + 1) :=
          Nat.mul_le_mul_left _ (Nat.pow_le_pow_right (by decide) (Nat.le_succ _))
      _ ≤ 2 ^ 26 := hcapacity.trans (by decide)
  have hlead : Decoding (consolePutc c lead) (init.length + 1) (announced lead) (leadBits lead)
      events := by
    rw [hlen]
    exact h.lead hseq.isLead
  exact hlead.upToLast init (by omega) hroom (List.forall_mem_append.mp hseq.conts).1

/-- The last byte of a sequence prints one thing, and the console waits for the next character. -/
theorem Waiting.atLast {events : List ConsoleEvent} (h : Waiting c events) {lead last : UInt8}
    {init : List UInt8} (hseq : Multibyte lead (init ++ [last])) :
    Waiting (consolePutc ((lead :: init).foldl consolePutc c) last)
      (events ++ decodedEvents (announced lead) (value lead (init ++ [last]))) := by
  have hlast := List.forall_mem_singleton.mp (List.forall_mem_append.mp hseq.conts).2
  have hv : extend (leadBits lead) init < 2 ^ 26 := by
    have hcapacity := hseq.capacity
    have hbound := extend_lt init (leadBits lead)
    rw [List.length_append, List.length_singleton, pow_succ, ← mul_assoc] at hcapacity
    omega
  have hafter := (h.upToLast hseq).last (announced_mem lead) hv hlast
  rw [value, extend, List.foldl_append]
  exact hafter

/-- **A whole sequence**: a lead byte and the bytes that it announces. -/
theorem Waiting.multibyte {events : List ConsoleEvent} (h : Waiting c events) {lead : UInt8}
    {conts : List UInt8} (hseq : Multibyte lead conts) :
    Waiting ((lead :: conts).foldl consolePutc c)
      (events ++ decodedEvents (announced lead) (value lead conts)) := by
  obtain ⟨init, last, rfl⟩ := hseq.last
  have hafter := h.atLast hseq
  rw [← List.cons_append, List.foldl_append]
  exact hafter

/-! ## Characters -/

/-- What the console prints for a character: itself if it is ASCII, else a question mark,
for which `console_emit_codepoint` has been called. -/
def glyphEvents (ch : Char) : List ConsoleEvent :=
  if ch.toNat < 0x80 then [.rawPutVisible (UInt8.ofNat ch.toNat)]
  else [.emitCodepoint ch.val, .rawPutVisible 0x3F]

/-- Printable ASCII, or not ASCII. The other characters are control characters, which print
nothing. -/
def Printable (ch : Char) : Prop := (0x20 ≤ ch.toNat ∧ ch.toNat ≤ 0x7E) ∨ 0x80 ≤ ch.toNat

instance : DecidablePred Printable := fun _ => inferInstanceAs (Decidable (_ ∨ _))

/-- The low six bits of a number, as `kbd_emit_utf8` puts them in a byte. -/
theorem or_low_bits (m : ℕ) : 0x80 ||| m &&& 0x3F = m % 0x40 + 0x80 := by
  have hbits : m &&& 0x3F = m % 0x40 := Nat.and_two_pow_sub_one_eq_mod m 6
  have hor : 2 ^ 7 * 1 + m % 0x40 = 2 ^ 7 * 1 ||| m % 0x40 :=
    Nat.two_pow_add_eq_or_of_lt ((Nat.mod_lt m (by decide)).trans (by decide)) 1
  rw [hbits, Nat.add_comm]
  exact hor.symm

/-- The driver encodes a character as it is to be encoded. -/
theorem utf8Bytes_char (ch : Char) : utf8Bytes ch.toNat = String.utf8EncodeChar ch := by
  have hmax := char_toNat_lt ch
  -- The driver drops surrogates, and no character is one.
  have hsurrogate : ¬(0xD800 ≤ ch.toNat ∧ ch.toNat ≤ 0xDFFF) := by
    have hvalid : ch.toNat.isValidChar := ch.valid
    rw [Nat.isValidChar] at hvalid
    omega
  have htwo : ∀ m < 0x20, 0xC0 ||| m = m % 0x20 + 0xC0 := by decide
  have hthree : ∀ m < 0x10, 0xE0 ||| m = m % 0x10 + 0xE0 := by decide
  have hfour : ∀ m < 0x08, 0xF0 ||| m = m % 0x08 + 0xF0 := by decide
  rw [utf8Bytes, String.utf8EncodeChar]
  simp only [Char.toNat_val, or_low_bits, Nat.shiftRight_eq_div_pow, Nat.reducePow]
  generalize ch.toNat = v at *
  split_ifs with h1 h2 h3 h4
  · rfl
  · rw [htwo _ (by omega)]
  · rw [hthree _ (by omega)]
  · rw [hfour _ (by omega)]
  · omega

/-- An encoded character is drawn as itself, and the console waits for the next one. Its bytes are
taken by the decoder one after the other, and the last one completes it. -/
theorem Waiting.char {events : List ConsoleEvent} (h : Waiting c events) {ch : Char}
    (hch : Printable ch) :
    Waiting ((String.utf8EncodeChar ch).foldl consolePutc c) (events ++ glyphEvents ch) := by
  rcases Nat.lt_or_ge ch.toNat 0x80 with hlow | hhigh
  · obtain ⟨hlo, hhi⟩ : 0x20 ≤ ch.toNat ∧ ch.toNat ≤ 0x7E := by
      rcases hch with hascii | hhigh
      · exact hascii
      · exact absurd hlow (Nat.not_lt.mpr hhigh)
    have hbyte : (UInt8.ofNat ch.toNat).toNat = ch.toNat := Nat.mod_eq_of_lt (by omega)
    have hnewline : UInt8.ofNat ch.toNat ≠ 0x0A := by
      intro heq
      rw [heq] at hbyte
      exact absurd (hbyte ▸ hlo) (by decide)
    rw [utf8EncodeChar_ascii hlow, glyphEvents, if_pos hlow, List.foldl_cons, List.foldl_nil,
      consolePutc_ground h.ground hnewline]
    rw [consoleHandleGroundByte_printable]
    · exact (h.serial _).prints (rawPutVisible_prints _ _)
    · rw [UInt8.le_iff_toNat_le, hbyte]
      exact hlo
    · rw [UInt8.le_iff_toNat_le, hbyte]
      exact hhi
  · obtain ⟨lead, conts, hencode, hseq, hleast, hvalue⟩ := utf8EncodeChar_multibyte hhigh
    have hdecoded := h.multibyte hseq
    have hbyte : ¬ch.val ≤ 0x7F := by
      rw [UInt32.le_iff_toNat_le]
      exact Nat.not_le.mpr hhigh
    have hval : UInt32.ofNat ch.toNat = ch.val := UInt32.ofNat_toNat
    rw [hvalue, decodedEvents, if_pos ⟨hleast, ch.valid⟩, hval, codepointEvents, if_neg hbyte]
      at hdecoded
    rw [hencode, glyphEvents, if_neg (Nat.not_lt.mpr hhigh)]
    exact hdecoded

/-- A list of characters. -/
theorem Waiting.chars (chars : List Char) :
    ∀ {c : Console} {events : List ConsoleEvent}, Waiting c events → (∀ ch ∈ chars, Printable ch) →
      Waiting ((chars.flatMap String.utf8EncodeChar).foldl consolePutc c)
        (events ++ chars.flatMap glyphEvents) := by
  induction chars with
  | nil =>
    intro c events h _
    rw [List.flatMap_nil, List.flatMap_nil, List.append_nil]
    exact h
  | cons ch chars ih =>
    intro c events h hchars
    obtain ⟨hch, hrest⟩ := List.forall_mem_cons.mp hchars
    rw [List.flatMap_cons, List.flatMap_cons, List.foldl_append, ← List.append_assoc]
    exact ih (h.char hch) hrest

/-! ## The byte queue -/

/-- A call of `kbd_emit_utf8`, or of `keyboard_pop_char`, in any order. -/
inductive EmitOp : Type where
  /-- `kbd_emit_utf8` -/
  | emit : Char → EmitOp
  /-- `keyboard_pop_char` -/
  | popChar : EmitOp
  deriving DecidableEq, Repr

/-- A driver, and the bytes that have been popped from it. -/
structure EmitRun : Type where
  /-- the driver -/
  kbd : Kbd
  /-- the bytes popped, oldest first -/
  popped : List UInt8

/-- One of them. -/
def emitStep (r : EmitRun) : EmitOp → EmitRun
  | .emit ch => { r with kbd := kbdEmitUtf8 r.kbd ch.toNat }
  | .popChar =>
    let p := keyboardPopChar r.kbd
    ⟨p.1, r.popped ++ p.2.toList⟩

/-- A run of these calls. -/
def emitRun (k : Kbd) (ops : List EmitOp) : EmitRun := ops.foldl emitStep ⟨k, []⟩

/-- The characters of a run, in the order in which they were emitted. -/
def charsOf (ops : List EmitOp) : List Char :=
  ops.filterMap fun
    | .emit ch => some ch
    | .popChar => none

/-- The pushes of the byte queue that were refused. Where there were some, a character has lost
bytes. -/
def EmitRun.refused (r : EmitRun) : ℕ := r.kbd.kbdByteQueue.refused

/-- All bytes of a run: those popped, and those that are in the queue when it is over. -/
def EmitRun.bytes (r : EmitRun) : List UInt8 :=
  r.popped ++ r.kbd.kbdByteQueue.ring.contents kbdByteQueueSize

/-- The indices of the byte queue are in range. -/
def EmitRun.InRange (r : EmitRun) : Prop := r.kbd.kbdByteQueue.ring.InRange kbdByteQueueSize

theorem emitStep_refused_le (r : EmitRun) (op : EmitOp) : r.refused ≤ (emitStep r op).refused := by
  cases op with
  | emit ch =>
    rw [emitStep, kbdEmitUtf8_eq, kbdEmitSequence_eq]
    exact kbdPushes_refused_le _ r.kbd.kbdByteQueue
  | popChar =>
    rw [emitStep, keyboardPopChar]
    split <;> exact le_rfl

theorem emitRun_refused_le (ops : List EmitOp) :
    ∀ r : EmitRun, r.refused ≤ (ops.foldl emitStep r).refused := by
  induction ops with
  | nil => exact fun _ => le_rfl
  | cons op ops ih => exact fun r => (emitStep_refused_le r op).trans (ih _)

/-- A character that finds room. -/
theorem EmitRun.emit {r : EmitRun} (h : r.InRange) (ch : Char)
    (hroom : (emitStep r (.emit ch)).refused = r.refused) :
    (emitStep r (.emit ch)).InRange ∧
      (emitStep r (.emit ch)).bytes = r.bytes ++ String.utf8EncodeChar ch := by
  have hqueue : (emitStep r (.emit ch)).kbd.kbdByteQueue =
      (String.utf8EncodeChar ch).foldl (kbdPush kbdByteQueueSize) r.kbd.kbdByteQueue := by
    rw [← utf8Bytes_char, emitStep, kbdEmitUtf8_eq, kbdEmitSequence_eq]
  rw [refused, refused, hqueue] at hroom
  obtain ⟨hrange, hcontents, -⟩ := kbdPushes_fit _ h hroom
  refine ⟨?_, ?_⟩
  · rw [InRange, hqueue]
    exact hrange
  · rw [bytes, hqueue, hcontents, bytes, List.append_assoc]
    rfl

/-- A pop moves a byte. -/
theorem EmitRun.popChar {r : EmitRun} (h : r.InRange) :
    (emitStep r .popChar).InRange ∧ (emitStep r .popChar).bytes = r.bytes := by
  rw [emitStep, keyboardPopChar]
  by_cases hempty : r.kbd.kbdByteQueue.ring.tail = r.kbd.kbdByteQueue.ring.head
  · rw [if_pos hempty]
    exact ⟨h, congrArg (· ++ _) (List.append_nil _)⟩
  · have hpop := SlotRing.InRange.contents_pop h hempty
    rw [if_neg hempty]
    refine ⟨SlotRing.InRange.pop h, ?_⟩
    rw [bytes, bytes, hpop, Option.toList_some, List.append_assoc]
    rfl

/-- A run in which no push is refused. -/
theorem emitRun_bytes (ops : List EmitOp) :
    ∀ {r : EmitRun}, r.InRange → (ops.foldl emitStep r).refused = r.refused →
      (ops.foldl emitStep r).bytes = r.bytes ++ (charsOf ops).flatMap String.utf8EncodeChar := by
  induction ops with
  | nil => exact fun _ _ => (List.append_nil _).symm
  | cons op ops ih =>
    intro r h hroom
    -- Refusals only grow, so the first step refused nothing either.
    have hfirst : (emitStep r op).refused = r.refused :=
      Nat.le_antisymm ((emitRun_refused_le ops _).trans_eq hroom) (emitStep_refused_le r op)
    rw [List.foldl_cons] at hroom ⊢
    cases op with
    | emit ch =>
      obtain ⟨hrange, hbytes⟩ := EmitRun.emit h ch hfirst
      have hchars : charsOf (.emit ch :: ops) = ch :: charsOf ops := rfl
      rw [ih hrange (hroom.trans hfirst.symm), hbytes, hchars, List.flatMap_cons, List.append_assoc]
    | popChar =>
      obtain ⟨hrange, hbytes⟩ := EmitRun.popChar h
      rw [ih hrange (hroom.trans hfirst.symm), hbytes]
      rfl

/-! ## The theorem -/

/-- **Encoder and decoder agree.** What the driver encodes the console prints, character by
character; and a sequence that is no encoding is printed as one question mark. -/
theorem utf8_agrees (c : Console) (hground : c.ansiParserState = .ground)
    (hneeded : c.utf8Needed = 0) :
    (∀ (k : Kbd) (ops : List EmitOp), k.kbdByteQueue.ring.InRange kbdByteQueueSize →
      k.kbdByteQueue.ring.contents kbdByteQueueSize = [] →
      (emitRun k ops).refused = k.kbdByteQueue.refused → (∀ ch ∈ charsOf ops, Printable ch) →
      ((emitRun k ops).bytes.foldl consolePutc c).shown =
          c.shown ++ (charsOf ops).flatMap glyphEvents ∧
        ((emitRun k ops).bytes.foldl consolePutc c).utf8Needed = 0) ∧
      ∀ (lead : UInt8) (conts : List UInt8), Multibyte lead conts → ¬Shortest (lead :: conts) →
        ((lead :: conts).foldl consolePutc c).shown =
          c.shown ++ [.emitCodepoint 0x3F, .rawPutVisible 0x3F] := by
  have hwaiting : Waiting c c.shown := ⟨hground, hneeded, rfl⟩
  refine ⟨?_, ?_⟩
  · intro k ops hrange hempty hroom hchars
    have hbytes : (emitRun k ops).bytes = (charsOf ops).flatMap String.utf8EncodeChar := by
      have hstart : (⟨k, []⟩ : EmitRun).bytes = [] := hempty
      have hrun := emitRun_bytes ops (r := ⟨k, []⟩) hrange hroom
      rw [hstart] at hrun
      exact hrun
    have hprinted := hwaiting.chars (charsOf ops) hchars
    rw [hbytes]
    exact ⟨hprinted.shown, hprinted.needed⟩
  · intro lead conts hseq hnone
    have hdecoded := hwaiting.multibyte hseq
    rw [decodedEvents, if_neg (mt (shortest_iff hseq).mpr hnone)] at hdecoded
    exact hdecoded.shown

/-- An ASCII letter, a byte read in between, two longer characters; and an overlong zero. -/
theorem utf8_agrees_euro :
    (((emitRun sysZero.kbd [.emit 'A', .popChar, .emit '€', .emit '😀']).bytes.foldl consolePutc
            (idleConsole vgaText)).shown =
          [.rawPutVisible 0x41, .emitCodepoint 0x20AC, .rawPutVisible 0x3F, .emitCodepoint 0x1F600,
            .rawPutVisible 0x3F] ∧
        ((emitRun sysZero.kbd [.emit 'A', .popChar, .emit '€', .emit '😀']).bytes.foldl consolePutc
            (idleConsole vgaText)).utf8Needed = 0) ∧
      ([0xC0, 0x80].foldl consolePutc (idleConsole vgaText)).shown =
        [.emitCodepoint 0x3F, .rawPutVisible 0x3F] := by
  have h := utf8_agrees (idleConsole vgaText) rfl rfl
  have hchars : ∀ ch ∈ ['A', '€', '😀'], Printable ch :=
    List.forall_mem_cons.mpr ⟨by decide, List.forall_mem_cons.mpr
      ⟨by decide, List.forall_mem_singleton.mpr (by decide)⟩⟩
  have hseq : Multibyte 0xC0 [0x80] :=
    ⟨by decide, by decide, List.forall_mem_singleton.mpr (by decide)⟩
  have hoverlong : ¬(least (announced 0xC0) ≤ value 0xC0 [0x80] ∧ (value 0xC0 [0x80]).isValidChar) := by
    decide
  exact ⟨h.1 sysZero.kbd [.emit 'A', .popChar, .emit '€', .emit '😀']
    (SlotRing.inRange_zero (by decide) _) (by decide) (by decide) hchars,
    h.2 0xC0 [0x80] hseq (mt (shortest_iff hseq).mp hoverlong)⟩

end WaluOs
