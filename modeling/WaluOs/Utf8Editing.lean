import WaluOs.SpelledLines
import WaluOs.TtyRuns
import WaluOs.Utf8

/-!
# Editing a line of characters

The streams are UTF-8, and the line editor is bytewise: an erase takes back one byte. A typed
line of characters is delivered as whole characters exactly when no erase finds a character of
more than one byte, but for what all has been taken back again (`utf8Line_delivered_iff`).

It is the theorem of `SpelledLines` for characters and their bytes; what is added here is that the
TTY edits its line as that list is edited, and delivers it up to the first byte without room.
-/

namespace WaluOs

open EditedLines

/-- A control character. -/
def IsControl (c : Char) : Prop := c.toNat < 0x20 ∨ (0x7F ≤ c.toNat ∧ c.toNat ≤ 0x9F)

instance (c : Char) : Decidable (IsControl c) := inferInstanceAs (Decidable (_ ∨ _))

/-- A character that is no control character. These are what a key can put into a line; a control
character would be acted upon by the TTY, and none has more than two bytes. -/
structure TextChar : Type where
  char : Char
  notControl : ¬IsControl char

/-- What is typed into a line: a character, or one of the two erase bytes. To the person who
types, each of them is one key, however many bytes it is sent as. -/
inductive TypedKey : Type where
  /-- a character -/
  | char : TextChar → TypedKey
  /-- 0x08 -/
  | backspace : TypedKey
  /-- 0x7F -/
  | delete : TypedKey

/-- How it is sent. The TTY sees only these bytes, and takes each of them for a key of its own. -/
def TypedKey.bytes : TypedKey → List UInt8
  | .char c => String.utf8EncodeChar c.char
  | .backspace => [0x08]
  | .delete => [0x7F]

/-- What the key does to a line: a character is added to it, and an erase takes back the last one.
-/
def TypedKey.kind : TypedKey → KeyKind
  | .char _ => .data
  | .backspace => .erase
  | .delete => .erase

/-- A key: what an erase takes back is the last character, if there is one. -/
def TypedKey.edit (line : List TextChar) : TypedKey → List TextChar
  | .char c => line ++ [c]
  | .backspace => line.dropLast
  | .delete => line.dropLast

/-- The characters that are left, if each erase takes back a character. This is what was meant by
the keys, in terms of keys and not of bytes. -/
def charsLeft (keys : List TypedKey) : List TextChar := keys.foldl TypedKey.edit []

/-- The text of characters in UTF-8, which is what the reader is to get. -/
def utf8 (chars : List TextChar) : List UInt8 :=
  chars.flatMap fun c => String.utf8EncodeChar c.char

/-- No byte finds the line buffer full. A byte that does is dropped, and then the line would lose
the end of a character for a reason that has nothing to do with erasing. -/
def FitsLine (bytes : List UInt8) : Prop :=
  FoldAlong (press keyKind) (fun line => line.length < ttyLineBufferSize) [] bytes

/-! ## The bytes of a character -/

/-- They are data to the line editor. -/
theorem TextChar.dataByte (c : TextChar) : ∀ b ∈ String.utf8EncodeChar c.char, DataByte b := by
  have hcontrol := c.notControl
  rw [IsControl, not_or, Nat.not_lt, not_and_or, Nat.not_le] at hcontrol
  intro b hb
  have hhigh : 0x80 ≤ b → DataByte b := by
    intro hb
    refine Or.inl ⟨UInt8.le_trans (by decide) hb, ?_⟩
    rintro rfl
    exact absurd hb (by decide)
  by_cases hascii : c.char.toNat < 0x80
  · rw [Utf8.utf8EncodeChar_ascii hascii, List.mem_singleton] at hb
    have hnat : b.toNat = c.char.toNat := by
      rw [hb, UInt8.toNat_ofNat']
      omega
    refine Or.inl ⟨?_, ?_⟩
    · rw [UInt8.le_iff_toNat_le, hnat]
      exact hcontrol.1
    · rintro rfl
      have hdel : c.char.toNat = 0x7F := hnat.symm
      omega
  · obtain ⟨lead, conts, hencode, hseq, -⟩ := Utf8.utf8EncodeChar_multibyte (Nat.not_lt.mp hascii)
    rw [hencode] at hb
    rcases List.mem_cons.mp hb with rfl | hb
    · exact hhigh (UInt8.le_trans (by decide) hseq.isLead.1)
    · exact hhigh (hseq.conts b hb).1

/-- How keys are sent. -/
theorem typedKey_spells : Spells TypedKey.kind keyKind TypedKey.bytes where
  nonempty
    | .char _, _ => String.utf8EncodeChar_ne_nil
    | .backspace, h => absurd rfl h
    | .delete, h => absurd rfl h
  other
    | .char c, _, b, hb => by
      rw [(c.dataByte b hb).keyKind]
      exact KeyKind.noConfusion
    | .backspace, h, _, _ => absurd rfl h
    | .delete, h, _, _ => absurd rfl h
  erase
    | .char _, h => KeyKind.noConfusion h
    | .backspace, _ => ⟨0x08, rfl, rfl⟩
    | .delete, _ => ⟨0x7F, rfl, rfl⟩

theorem charsLeft_concat (keys : List TypedKey) (key : TypedKey) :
    charsLeft (keys ++ [key]) = TypedKey.edit (charsLeft keys) key := List.foldl_concat ..

/-- The characters that are left are the keys that are left. -/
theorem editLine_eq_charsLeft (keys : List TypedKey) :
    EditedLines.editLine TypedKey.kind keys = (charsLeft keys).map .char := by
  induction keys using List.reverseRecOn with
  | nil => rfl
  | append_singleton keys key ih =>
    rw [editLine_concat, ih, charsLeft_concat]
    cases key with
    | char c =>
      rw [press_other KeyKind.noConfusion, TypedKey.edit, List.map_append, List.map_singleton]
    | backspace => exact (press_erase rfl _).trans List.map_dropLast.symm
    | delete => exact (press_erase rfl _).trans List.map_dropLast.symm

theorem flatMap_editLine (keys : List TypedKey) :
    (EditedLines.editLine TypedKey.kind keys).flatMap TypedKey.bytes = utf8 (charsLeft keys) := by
  rw [editLine_eq_charsLeft, List.flatMap_map]
  rfl

/-! ## The line editor -/

/-- Data or an erase byte. -/
def EditsLine (byte : UInt8) : Prop := DataByte byte ∨ keyKind byte = .erase

theorem TypedKey.editsLine (key : TypedKey) : ∀ b ∈ key.bytes, EditsLine b := by
  cases key with
  | char c => exact fun b hb => Or.inl (c.dataByte b hb)
  | backspace => exact fun b hb => Or.inr (by rw [List.mem_singleton.mp hb]; rfl)
  | delete => exact fun b hb => Or.inr (by rw [List.mem_singleton.mp hb]; rfl)

/-- **One byte**, while it fits. -/
theorem Discipline.step_press {line : List UInt8} {byte : UInt8} (hbyte : EditsLine byte)
    (hfits : (press keyKind line byte).length < ttyLineBufferSize) :
    Discipline.step ⟨0, line⟩ byte = (⟨0, press keyKind line byte⟩, []) := by
  rcases hbyte with hdata | herase
  · have hother : keyKind byte ≠ .erase := by
      rw [hdata.keyKind]
      exact KeyKind.noConfusion
    have hdel : ¬(byte = 0x08 ∨ byte = 0x7F) := mt keyKind_erase.mpr hother
    rw [press_other hother, List.length_append, List.length_singleton] at hfits
    have hjoins : lineStep line byte = (line ++ [byte], []) := by
      rw [lineStep, if_neg (hdata.ne (by decide)), if_neg (hdata.ne (by decide)), if_neg hdel,
        if_neg (hdata.ne (by decide)), if_neg (hdata.ne (by decide)),
        if_pos ⟨hdata.isPrintable, hfits⟩]
    have hpasses : escapeStep 0 byte = (0, false) := by
      rw [escapeStep, if_pos rfl, if_neg (hdata.ne (by decide))]
    rw [press_other hother, Discipline.step, hpasses, hjoins]
    rfl
  · rw [press_erase herase]
    rcases keyKind_erase.mp herase with rfl | rfl <;> rfl

/-- A number of bytes. -/
theorem Discipline.feed_press (bytes : List UInt8) :
    ∀ {line : List UInt8}, (∀ b ∈ bytes, EditsLine b) →
      FoldAlong (press keyKind) (fun line => line.length < ttyLineBufferSize) line bytes →
        Discipline.feed ⟨0, line⟩ bytes = (⟨0, bytes.foldl (press keyKind) line⟩, []) := by
  induction bytes with
  | nil => exact fun _ _ => rfl
  | cons byte bytes ih =>
    intro line hbytes hfits
    obtain ⟨hbyte, hrest⟩ := List.forall_mem_cons.mp hbytes
    rw [Discipline.feed, Mealy.run_cons, Discipline.step_press hbyte hfits.tail.start,
      ← Discipline.feed, ih hrest hfits.tail]
    rfl

/-- A line that fits, and its newline. -/
theorem Discipline.feed_line {bytes : List UInt8} (hbytes : ∀ b ∈ bytes, EditsLine b)
    (hfits : FitsLine (bytes ++ [0x0A])) :
    Discipline.feed ⟨0, []⟩ (bytes ++ [0x0A]) =
      (⟨0, []⟩, EditedLines.editLine keyKind bytes ++ [0x0A]) := by
  have hend := hfits.finish
  rw [List.foldl_concat, press_other KeyKind.noConfusion, List.length_append,
    List.length_singleton] at hend
  have hfeed := Discipline.feed_press bytes hbytes (hfits.restrict (List.prefix_append ..))
  rw [Discipline.feed] at hfeed
  rw [Discipline.feed, Mealy.run_append, hfeed, Mealy.run_singleton, Discipline.step_newline rfl,
    if_pos hend]
  rfl

/-- So few bytes always fit. -/
theorem fitsLine_of_length {bytes : List UInt8} (h : bytes.length < ttyLineBufferSize) :
    FitsLine bytes := by
  intro p hp
  have hshort : (EditedLines.editLine keyKind p).length ≤ p.length := by
    induction p using List.reverseRecOn with
    | nil => exact le_rfl
    | append_singleton p b ih =>
      have hbefore := ih ((List.prefix_append ..).trans hp)
      rw [editLine_concat, List.length_append, List.length_singleton]
      by_cases hb : keyKind b = .erase
      · rw [press_erase hb, List.length_dropLast]
        omega
      · rw [press_other hb, List.length_append]
        exact Nat.add_le_add_right hbefore 1
  exact (hshort.trans hp.length_le).trans_lt h

/-- No newline is left in the line. -/
theorem notMem_editLine {bytes : List UInt8} (hbytes : ∀ b ∈ bytes, EditsLine b) :
    0x0A ∉ EditedLines.editLine keyKind bytes := by
  intro hmem
  rcases hbytes _ (of_mem_editLine _ hmem).1 with hdata | herase
  · exact absurd hdata (by decide)
  · exact absurd herase KeyKind.noConfusion

/-- A line and its newline, as far as there is room. -/
theorem take_line_eq_iff {line line' : List UInt8} (hline : 0x0A ∉ line) (room : ℕ) :
    (line ++ [0x0A]).take room = line' ++ [0x0A] ↔ line = line' ∧ line'.length + 1 ≤ room := by
  constructor
  · intro heq
    have hroom : line.length + 1 ≤ room := by
      by_contra hshort
      -- what is cut off is the newline
      rw [List.take_append_of_le_length (by omega)] at heq
      have hmem : (0x0A : UInt8) ∈ line.take room := by
        rw [heq]
        exact List.mem_append_right _ (List.mem_singleton_self _)
      exact hline (List.mem_of_mem_take hmem)
    have hwhole : (line ++ [0x0A]).take room = line ++ [0x0A] :=
      List.take_of_length_le (by rw [List.length_append, List.length_singleton]; exact hroom)
    rw [hwhole] at heq
    obtain rfl := List.append_cancel_right heq
    exact ⟨rfl, hroom⟩
  · rintro ⟨rfl, hroom⟩
    exact List.take_of_length_le (by rw [List.length_append, List.length_singleton]; exact hroom)

/-- **A typed line is delivered as whole characters**, each erase taking back the last one, exactly
when there is room for it and, but for a front part of which all is taken back, no erase finds a
character of more than one byte. -/
theorem utf8Line_delivered_iff {s : Sys} (hok : ReaderOk s) (hs : Editing s)
    (hempty : s.tty.ttyLine = []) (keys : List TypedKey)
    (hfits : FitsLine (keys.flatMap TypedKey.bytes ++ [0x0A])) :
    ((keys.flatMap TypedKey.bytes ++ [0x0A]).foldl ttyReceive s).readerQueue =
        s.readerQueue ++ (utf8 (charsLeft keys) ++ [0x0A]) ↔
      (utf8 (charsLeft keys)).length + 1 ≤ s.readerRoom ∧
        ErasesWhole TypedKey.kind TypedKey.bytes keys := by
  have hbytes : ∀ b ∈ keys.flatMap TypedKey.bytes, EditsLine b := by
    intro b hb
    obtain ⟨key, -, hb⟩ := List.mem_flatMap.mp hb
    exact key.editsLine b hb
  have hstart : s.discipline = ⟨0, []⟩ := by rw [Sys.discipline, hs.idle, hempty]
  have hqueue := (ttyReceives_received (keys.flatMap TypedKey.bytes ++ [0x0A]) hok
    hs.canonical).pushes.queue
  rw [hstart, Discipline.feed_line hbytes hfits] at hqueue
  rw [hqueue, List.append_right_inj, take_line_eq_iff (notMem_editLine hbytes),
    ← flatMap_editLine, editLine_flatMap_iff typedKey_spells, and_comm]

/-- The letter a and the letter e with an acute accent. -/
def letterA : TextChar := ⟨'a', by decide⟩

def letterEAcute : TextChar := ⟨'\u00e9', by decide⟩

/-- An erase that finds a letter, and one that finds nothing. -/
def erasedLetter : List TypedKey := [.char letterA, .backspace, .delete, .char letterEAcute]

theorem erasedLetter_delivered :
    ((erasedLetter.flatMap TypedKey.bytes ++ [0x0A]).foldl ttyReceive
        (ttyStart sysZero)).readerQueue =
          (ttyStart sysZero).readerQueue ++ (utf8 (charsLeft erasedLetter) ++ [0x0A]) ↔
      (utf8 (charsLeft erasedLetter)).length + 1 ≤ (ttyStart sysZero).readerRoom ∧
        ErasesWhole TypedKey.kind TypedKey.bytes erasedLetter :=
  utf8Line_delivered_iff (ttyStart_ok sysZero).reader ⟨rfl, rfl⟩ rfl erasedLetter
    (fitsLine_of_length (by decide))

/-- A letter of two bytes, and an erase. The erase takes back the second byte, and the first one
stays in the line. -/
def erasedEAcute : List TypedKey := [.char letterEAcute, .delete]

/-- No characters are encoded so. -/
theorem not_utf8_leadNewline (chars : List Char) :
    chars.flatMap String.utf8EncodeChar ≠ [0xC3, 0x0A] := by
  intro h
  cases chars with
  | nil => exact absurd h (by decide)
  | cons c chars =>
    rw [List.flatMap_cons] at h
    by_cases hascii : c.toNat < 0x80
    · rw [Utf8.utf8EncodeChar_ascii hascii] at h
      have hbyte := congrArg UInt8.toNat (List.cons.inj h).1
      rw [UInt8.toNat_ofNat'] at hbyte
      change c.toNat % 256 = 195 at hbyte
      omega
    · obtain ⟨lead, conts, hencode, hseq, -⟩ := Utf8.utf8EncodeChar_multibyte (Nat.not_lt.mp hascii)
      rw [hencode] at h
      obtain ⟨rfl, hrest⟩ := List.cons.inj h
      -- the lead byte announces a continuation byte
      obtain ⟨b, rfl⟩ := List.length_eq_one_iff.mp hseq.length
      obtain ⟨rfl, -⟩ := List.cons.inj hrest
      exact absurd (hseq.conts 0x0A (List.mem_singleton_self _)) (by decide)

/-- Its first byte is delivered, and is no UTF-8. -/
theorem erasedEAcute_halved :
    FitsLine (erasedEAcute.flatMap TypedKey.bytes ++ [0x0A]) ∧
      ((erasedEAcute.flatMap TypedKey.bytes ++ [0x0A]).foldl ttyReceive
        (ttyStart sysZero)).readerQueue = [0xC3, 0x0A] ∧
      (∀ chars : List Char, chars.flatMap String.utf8EncodeChar ≠ [0xC3, 0x0A]) ∧
      (ttyStart sysZero).readerQueue ++ (utf8 (charsLeft erasedEAcute) ++ [0x0A]) = [0x0A] :=
  ⟨fitsLine_of_length (by decide), by decide +kernel, not_utf8_leadNewline, by decide +kernel⟩

end WaluOs
