import WaluOs.ConsoleSim

/-!
# What printing leaves alone

Whatever the console is told to show, the display and the terminal change and the serial port
does not: only `console_putc` itself sends something. The saved cursor changes in two places,
`CSI s` and `console_clear`.

`Steady keep` says both, the second under the condition `keep`, so that each function is
looked at once.
-/

namespace WaluOs

open Loops

/-- The serial port is as it was, and so is the saved cursor if `keep` holds. Drawing keeps both,
so that only a few calls of a console are left to look at. -/
structure Steady (keep : Prop) (c c' : Console) : Prop where
  serial : c'.serial = c.serial
  initialized : c'.serialInitialized = c.serialInitialized
  saved : keep → c'.savedCursorRow = c.savedCursorRow ∧ c'.savedCursorCol = c.savedCursorCol

variable {keep : Prop} {a b c : Console}

namespace Steady

theorem refl (c : Console) : Steady keep c c := ⟨rfl, rfl, fun _ => ⟨rfl, rfl⟩⟩

theorem trans (h : Steady keep a b) (h' : Steady keep b c) : Steady keep a c :=
  ⟨h'.serial.trans h.serial, h'.initialized.trans h.initialized, fun hkeep =>
    ⟨(h'.saved hkeep).1.trans (h.saved hkeep).1, (h'.saved hkeep).2.trans (h.saved hkeep).2⟩⟩

theorem weaken {keep' : Prop} (h : Steady keep a b) (himp : keep' → keep) : Steady keep' a b :=
  ⟨h.serial, h.initialized, fun hkeep => h.saved (himp hkeep)⟩

theorem draw (h : Steady keep a b) (f : Display → Display) : Steady keep a (b.draw f) :=
  ⟨h.serial, h.initialized, h.saved⟩

/-- A change of the terminal that keeps the saved cursor. -/
theorem update (h : Steady keep a b) {f : Term → Term}
    (hf : keep → (f b.toTerm).savedCursorRow = b.savedCursorRow ∧
      (f b.toTerm).savedCursorCol = b.savedCursorCol) :
    Steady keep a (b.update f) :=
  ⟨h.serial, h.initialized, fun hkeep =>
    ⟨(hf hkeep).1.trans (h.saved hkeep).1, (hf hkeep).2.trans (h.saved hkeep).2⟩⟩

theorem forRange {first last : ℕ} {body : Console → ℕ → Console} (h : Steady keep a b)
    (hbody : ∀ s i, Steady keep s (body s i)) :
    Steady keep a (forRange first last body b) :=
  forRange_invariant h fun i s _ _ hs => hs.trans (hbody s i)

end Steady

/-! ## Drawing at the cursor -/

theorem scrollIfNeeded_steady (c : Console) : Steady keep c (scrollIfNeeded c) := by
  rw [scrollIfNeeded]
  split
  · exact Steady.refl c
  · exact ((Steady.refl c).draw _).update fun _ => ⟨rfl, rfl⟩

theorem clearLineRange_steady (c : Console) (row colStart colEnd : ℕ) :
    Steady keep c (clearLineRange c row colStart colEnd) := by
  rw [clearLineRange]
  split
  · exact Steady.refl c
  · dsimp only
    generalize (if c.termCols ≤ colStart then c.termCols - 1 else colStart) = first
    generalize (if c.termCols ≤ colEnd then c.termCols - 1 else colEnd) = last
    split
    · exact Steady.refl c
    · exact (Steady.refl c).draw _

theorem advanceCursor_steady (c : Console) : Steady keep c (advanceCursor c) := by
  have hstep : Steady keep c (c.update fun t => { t with cursorCol := t.cursorCol + 1 }) :=
    (Steady.refl c).update fun _ => ⟨rfl, rfl⟩
  rw [advanceCursor]
  split
  · exact hstep.update fun _ => ⟨rfl, rfl⟩
  · exact hstep

theorem rawPutVisible_steady (c : Console) (byte : UInt8) :
    Steady keep c (rawPutVisible c byte) :=
  (((Steady.refl c).draw _).trans (advanceCursor_steady _)).trans (scrollIfNeeded_steady _)

theorem rawNewline_steady (c : Console) : Steady keep c (rawNewline c) :=
  ((Steady.refl c).update fun _ => ⟨rfl, rfl⟩).trans (scrollIfNeeded_steady _)

theorem retreatCursor_steady (c : Console) : Steady keep c (retreatCursor c) := by
  rw [retreatCursor]
  split
  · exact (Steady.refl c).update fun _ => ⟨rfl, rfl⟩
  · exact (Steady.refl c).update fun _ => ⟨rfl, rfl⟩

theorem consoleBackspace_steady (c : Console) : Steady keep c (consoleBackspace c) := by
  rw [consoleBackspace]
  split
  · exact Steady.refl c
  · exact (retreatCursor_steady c).draw _

/-- `console_clear` forgets the saved cursor. -/
theorem consoleClear_steady (c : Console) : Steady False c (consoleClear c) :=
  ⟨rfl, rfl, False.elim⟩

/-! ## Control sequences -/

theorem ansiSgrApply_saved (t : Term) (code : ℤ) :
    (ansiSgrApply t code).savedCursorRow = t.savedCursorRow ∧
      (ansiSgrApply t code).savedCursorCol = t.savedCursorCol := by
  rw [ansiSgrApply]
  repeat' split
  all_goals exact ⟨rfl, rfl⟩

theorem foldl_ansiSgrApply_saved (codes : List ℤ) :
    ∀ t : Term, (codes.foldl ansiSgrApply t).savedCursorRow = t.savedCursorRow ∧
      (codes.foldl ansiSgrApply t).savedCursorCol = t.savedCursorCol := by
  induction codes with
  | nil => exact fun _ => ⟨rfl, rfl⟩
  | cons code codes ih =>
    intro t
    have hstep := ansiSgrApply_saved t code
    exact ⟨(ih _).1.trans hstep.1, (ih _).2.trans hstep.2⟩

theorem ansiPushCurrentParam_saved (t : Term) :
    (ansiPushCurrentParam t).savedCursorRow = t.savedCursorRow ∧
      (ansiPushCurrentParam t).savedCursorCol = t.savedCursorCol := by
  rw [ansiPushCurrentParam]
  split
  · exact ⟨rfl, rfl⟩
  · dsimp only
    split <;> exact ⟨rfl, rfl⟩

theorem ansiEraseDisplay_steady (c : Console) :
    Steady (ansiParamAt c.toTerm 0 0 ≠ 2) c (ansiEraseDisplay c) := by
  rw [ansiEraseDisplay]
  dsimp only
  split
  · rename_i htwo
    exact (consoleClear_steady c).weaken fun hne => hne htwo
  · split
    · exact (clearLineRange_steady c _ _ _).forRange fun s i => clearLineRange_steady s i _ _
    · split
      · exact ((Steady.refl c).forRange fun s i => clearLineRange_steady s i _ _).trans
          (clearLineRange_steady _ _ _ _)
      · exact Steady.refl c

theorem ansiEraseLine_steady (c : Console) : Steady keep c (ansiEraseLine c) := by
  rw [ansiEraseLine]
  repeat' split
  · exact clearLineRange_steady c _ _ _
  · exact clearLineRange_steady c _ _ _
  · exact clearLineRange_steady c _ _ _
  · exact Steady.refl c

/-- The control sequences that write the saved cursor: `CSI s`, and `CSI 2 J`, which is
`console_clear`. -/
def Term.Saves (t : Term) (final : UInt8) : Prop :=
  final = 0x73 ∨ final = 0x4A ∧ ansiParamAt t 0 0 = 2

instance (t : Term) (final : UInt8) : Decidable (t.Saves final) :=
  inferInstanceAs (Decidable (_ ∨ _))

/-- The final byte of a control sequence. Only `s` and a `J` that clears the screen write the
saved cursor, and none of the branches sends anything. -/
theorem ansiExecuteCsi_steady (c : Console) (final : UInt8) :
    Steady (¬c.Saves final) c (ansiExecuteCsi c final) := by
  rw [ansiExecuteCsi]
  split
  · split
    · exact (Steady.refl c).update fun _ => ansiSgrApply_saved c.toTerm 0
    · exact (Steady.refl c).update fun _ => foldl_ansiSgrApply_saved c.ansiParams c.toTerm
  · split
    · rw [ansiCursorPosition]
      exact (Steady.refl c).update fun _ => ⟨rfl, rfl⟩
    · dsimp only
      split
      · exact (Steady.refl c).update fun _ => ⟨rfl, rfl⟩
      · split
        · exact (Steady.refl c).update fun _ => ⟨rfl, rfl⟩
        · split
          · exact (Steady.refl c).update fun _ => ⟨rfl, rfl⟩
          · split
            · exact (Steady.refl c).update fun _ => ⟨rfl, rfl⟩
            · split
              · rename_i herase
                exact (ansiEraseDisplay_steady c).weaken fun hkeep htwo =>
                  hkeep (Or.inr ⟨herase, htwo⟩)
              · split
                · exact ansiEraseLine_steady c
                · split
                  · rename_i hsave
                    exact (Steady.refl c).update fun hkeep => absurd (Or.inl hsave) hkeep
                  · split
                    · rw [ansiRestoreCursor]
                      exact (Steady.refl c).update fun _ => ⟨rfl, rfl⟩
                    · exact Steady.refl c

/-! ## Text -/

theorem consoleEmitCodepoint_steady (c : Console) (codepoint : UInt32) :
    Steady keep c (consoleEmitCodepoint c codepoint) := by
  have hnote : Steady keep c (c.draw fun d => d.note (.emitCodepoint codepoint)) :=
    (Steady.refl c).draw _
  rw [consoleEmitCodepoint]
  split
  · exact hnote
  · split
    · exact hnote.trans (rawPutVisible_steady _ _)
    · exact hnote.trans (rawPutVisible_steady _ _)

theorem consoleEmitUtf8Byte_steady (c : Console) (byte : UInt8) :
    Steady keep c (consoleEmitUtf8Byte c byte) := by
  have hset (f : Term → Term) (hf : ∀ t, (f t).savedCursorRow = t.savedCursorRow ∧
      (f t).savedCursorCol = t.savedCursorCol) : Steady keep c (c.update f) :=
    (Steady.refl c).update fun _ => hf c.toTerm
  rw [consoleEmitUtf8Byte]
  split
  · repeat' split
    · exact hset _ fun _ => ⟨rfl, rfl⟩
    · exact hset _ fun _ => ⟨rfl, rfl⟩
    · exact hset _ fun _ => ⟨rfl, rfl⟩
    · exact consoleEmitCodepoint_steady c 0x3F
  · split
    · refine Steady.trans ?_ (consoleEmitCodepoint_steady _ 0x3F)
      exact hset _ fun _ => ⟨rfl, rfl⟩
    · dsimp only
      split
      · refine Steady.update ?_ fun _ => ⟨rfl, rfl⟩
        split
        · refine Steady.trans ?_ (consoleEmitCodepoint_steady _ _)
          exact hset _ fun _ => ⟨rfl, rfl⟩
        · refine Steady.trans ?_ (consoleEmitCodepoint_steady _ 0x3F)
          exact hset _ fun _ => ⟨rfl, rfl⟩
      · exact hset _ fun _ => ⟨rfl, rfl⟩

theorem consoleHandleGroundByte_steady (c : Console) (byte : UInt8) :
    Steady keep c (consoleHandleGroundByte c byte) := by
  rw [consoleHandleGroundByte]
  repeat' split
  · exact (Steady.refl c).update fun _ => ⟨rfl, rfl⟩
  · exact rawNewline_steady c
  · exact (Steady.refl c).update fun _ => ⟨rfl, rfl⟩
  · exact consoleBackspace_steady c
  · exact (Steady.refl c).forRange fun s _ => rawPutVisible_steady s 0x20
  · exact Steady.refl c
  · exact rawPutVisible_steady c byte
  · exact consoleEmitUtf8Byte_steady c byte

/-- The byte, if it ends a control sequence, ends one that writes the saved cursor. The parameters
may still have one to come, which is pushed first as `ansi_execute_csi` does. -/
def Term.SavesAt (t : Term) (byte : UInt8) : Prop :=
  t.ansiParserState = .csi ∧ (ansiPushCurrentParam t).Saves byte

instance (t : Term) (byte : UInt8) : Decidable (t.SavesAt byte) :=
  inferInstanceAs (Decidable (_ ∧ _))

theorem consoleHandleCsiByte_steady (c : Console) (byte : UInt8) :
    Steady (¬(ansiPushCurrentParam c.toTerm).Saves byte) c (consoleHandleCsiByte c byte) := by
  rw [consoleHandleCsiByte]
  split
  · exact (Steady.refl c).update fun _ => ⟨rfl, rfl⟩
  · split
    · exact (Steady.refl c).update fun _ => ansiPushCurrentParam_saved c.toTerm
    · split
      · have hpush : Steady (¬(ansiPushCurrentParam c.toTerm).Saves byte) c
            (c.update ansiPushCurrentParam) :=
          (Steady.refl c).update fun _ => ansiPushCurrentParam_saved c.toTerm
        have hexecute := ansiExecuteCsi_steady (c.update ansiPushCurrentParam) byte
        exact (hpush.trans hexecute).update fun _ => ⟨rfl, rfl⟩
      · exact (Steady.refl c).update fun _ => ⟨rfl, rfl⟩

end WaluOs
