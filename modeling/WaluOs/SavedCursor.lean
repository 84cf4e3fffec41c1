import WaluOs.ConsoleSteady
import WaluOs.EraseRegions

/-!
# The saved cursor

`CSI s` saves the cursor and `CSI u` goes back to it, whatever was printed in between: text, other
control sequences, newlines that scroll. Only the next `CSI s` and a clear change what is saved
(`restoreCursor_last`); a scroll does not move it along.
-/

namespace WaluOs

variable {c : Console}

/-! ## The display keeps its size -/

/-- One console on a display of geometry `g`, which keeps all accesses within its arrays. -/
structure BoundedOn (g : Geometry) (d e : Display) : Prop where
  same : d = e
  within : Within g d
  selectable : g.Selectable

theorem boundedOn_drawRel (g : Geometry) : DrawRel (BoundedOn g) where
  rows := fun h => by rw [h.same]
  cols := fun h => by rw [h.same]
  rows_pos := by
    intro d e h
    rw [h.within.geometry]
    exact h.selectable.rows_pos
  cols_pos := by
    intro d e h
    rw [h.within.geometry]
    exact h.selectable.cols_pos
  notePut := by
    rintro d e ⟨rfl, hin, hg⟩ byte
    exact ⟨rfl, hin.note trivial, hg⟩
  noteEmit := by
    rintro d e ⟨rfl, hin, hg⟩ cp
    exact ⟨rfl, hin.note trivial, hg⟩
  put := by
    rintro d e ⟨rfl, hin, hg⟩ row col hrow hcol byte - color
    rw [hin.geometry] at hrow hcol
    exact ⟨rfl, hin.backendPutCell hg hrow hcol byte color, hg⟩
  clearAll := by
    rintro d e ⟨rfl, hin, hg⟩ color
    exact ⟨rfl, hin.backendClearAll hg color, hg⟩
  scrollUp := by
    rintro d e ⟨rfl, hin, hg⟩ color
    exact ⟨rfl, hin.backendScrollUp hg color, hg⟩

/-- A console of some run, by itself. -/
theorem ConsoleReached.sim (h : ConsoleReached c) :
    Sim (BoundedOn c.toGeometry) c c := by
  obtain ⟨c₀, ops, rfl⟩ := h
  have hin := consoleRun_inBounds c₀ ops
  exact ⟨⟨rfl, ⟨rfl, hin.inside⟩, hin.selectable⟩, rfl, hin.row, hin.col,
    hin.params, hin.fg, hin.bg, hin.utf8⟩

/-! ## What is saved -/

/-- Any other byte leaves it. -/
theorem consolePutc_saved (c : Console) {byte : UInt8} (h : ¬c.SavesAt byte) :
    (consolePutc c byte).savedCursorRow = c.savedCursorRow ∧
      (consolePutc c byte).savedCursorCol = c.savedCursorCol := by
  have hterm : (serialWriteChar (if byte = 0x0A then serialWriteChar c 0x0D else c) byte).toTerm =
      c.toTerm := by
    rw [serialWriteChar_toTerm]
    split
    · exact serialWriteChar_toTerm c 0x0D
    · rfl
  rw [Term.SavesAt, ← hterm] at h
  rw [consolePutc, ← hterm]
  generalize serialWriteChar (if byte = 0x0A then serialWriteChar c 0x0D else c) byte = s at h
  split
  · exact (@consoleHandleGroundByte_steady True s byte).saved trivial
  · split
    · exact ⟨rfl, rfl⟩
    · exact (@consoleHandleGroundByte_steady True _ byte).saved trivial
  · rename_i hcsi
    exact (consoleHandleCsiByte_steady s byte).saved fun hsaves => h ⟨hcsi, hsaves⟩

/-- What such a byte saves: the cursor, or the first cell of the screen. -/
theorem consolePutc_saves {byte : UInt8} (h : c.SavesAt byte) :
    (consolePutc c byte).savedCursorRow = (if byte = 0x73 then c.cursorRow else 0) ∧
      (consolePutc c byte).savedCursorCol = (if byte = 0x73 then c.cursorCol else 0) := by
  obtain ⟨hcsi, rfl | ⟨rfl, htwo⟩⟩ := h
  · have hrow := congrArg Term.cursorRow (reset_push c.toTerm)
    have hcol := congrArg Term.cursorCol (reset_push c.toTerm)
    rw [consolePutc_final hcsi (by decide)]
    have hexecute : ansiExecuteCsi (csiCall c 0x73) 0x73 = ansiSaveCursor (csiCall c 0x73) := rfl
    rw [hexecute, if_pos rfl, if_pos rfl]
    constructor
    · show (csiCall c 0x73).cursorRow = c.cursorRow
      rw [csiCall_toTerm]
      exact hrow
    · show (csiCall c 0x73).cursorCol = c.cursorCol
      rw [csiCall_toTerm]
      exact hcol
  · rw [consolePutc_final hcsi (by decide)]
    have hexecute : ansiExecuteCsi (csiCall c 0x4A) 0x4A = ansiEraseDisplay (csiCall c 0x4A) := rfl
    rw [← csiCall_toTerm c 0x4A] at htwo
    rw [hexecute, ansiEraseDisplay]
    dsimp only
    rw [if_pos htwo]
    exact ⟨rfl, rfl⟩

/-- No call saves a cursor or clears the screen. Whether a byte saves it depends on the state it
is read in, so this follows the console from call to call. -/
def SavesNone : Console → List ConsoleCall → Prop
  | _, [] => True
  | c, .putc byte :: calls => ¬c.SavesAt byte ∧ SavesNone (consolePutc c byte) calls
  | _, .clear :: _ => False
  | c, .backspace :: calls => SavesNone (consoleBackspace c) calls

theorem savesNone_saved (calls : List ConsoleCall) :
    ∀ {c : Console}, SavesNone c calls →
      (calls.foldl consoleCall c).savedCursorRow = c.savedCursorRow ∧
        (calls.foldl consoleCall c).savedCursorCol = c.savedCursorCol := by
  induction calls with
  | nil => exact fun _ => ⟨rfl, rfl⟩
  | cons call calls ih =>
    intro c h
    cases call with
    | putc byte =>
      obtain ⟨hrow, hcol⟩ := ih h.2
      exact ⟨hrow.trans (consolePutc_saved c h.1).1, hcol.trans (consolePutc_saved c h.1).2⟩
    | clear => exact absurd h not_false
    | backspace =>
      obtain ⟨hrow, hcol⟩ := ih h
      have hsteady := (@consoleBackspace_steady True c).saved trivial
      exact ⟨hrow.trans hsteady.1, hcol.trans hsteady.2⟩

/-! ## Going back -/

/-- `CSI u` goes to what is saved, if that is on the screen. -/
theorem restoreSequence (hidle : c.ansiParserState ≠ .csi) (hrow : c.savedCursorRow < c.termRows)
    (hcol : c.savedCursorCol < c.termCols) :
    ([0x1B, 0x5B, 0x75].foldl consolePutc c).cursorRow = c.savedCursorRow ∧
      ([0x1B, 0x5B, 0x75].foldl consolePutc c).cursorCol = c.savedCursorCol := by
  have hesc : consolePutc c 0x1B =
      (serialWriteChar c 0x1B).update fun t => { t with ansiParserState := .esc } := by
    rw [consolePutc, if_neg (by decide)]
    rw [serialWriteChar_toTerm]
    cases hstate : c.ansiParserState with
    | ground => rfl
    | esc => rfl
    | csi => exact absurd hstate hidle
  have hcsi : consolePutc (consolePutc c 0x1B) 0x5B =
      (serialWriteChar (consolePutc c 0x1B) 0x5B).update fun t =>
        ansiResetParams { t with ansiParserState := .csi } := by
    rw [consolePutc, if_neg (by decide)]
    rw [serialWriteChar_toTerm, hesc]
    rfl
  let f := consolePutc (consolePutc c 0x1B) 0x5B
  have hterm : f.toTerm = ansiResetParams { c.toTerm with ansiParserState := .csi } := by
    show (consolePutc (consolePutc c 0x1B) 0x5B).toTerm = _
    rw [hcsi]
    show ansiResetParams { (serialWriteChar (consolePutc c 0x1B) 0x5B).toTerm with
      ansiParserState := .csi } = _
    rw [serialWriteChar_toTerm, hesc]
    show ansiResetParams { (serialWriteChar c 0x1B).toTerm with ansiParserState := .csi } = _
    rw [serialWriteChar_toTerm]
  have hdisplay : (csiCall f 0x75).toDisplay = c.toDisplay := by
    rw [csiCall_toDisplay]
    show (consolePutc (consolePutc c 0x1B) 0x5B).toDisplay = _
    rw [hcsi]
    refine (serialWriteChar_toDisplay _ _).trans ?_
    rw [hesc]
    exact serialWriteChar_toDisplay c 0x1B
  have hsaved : (csiCall f 0x75).savedCursorRow = c.savedCursorRow ∧
      (csiCall f 0x75).savedCursorCol = c.savedCursorCol := by
    have hpush := ansiPushCurrentParam_saved f.toTerm
    rw [csiCall_toTerm, hpush.1, hpush.2, hterm]
    exact ⟨rfl, rfl⟩
  have hexecute : ansiExecuteCsi (csiCall f 0x75) 0x75 = ansiRestoreCursor (csiCall f 0x75) := rfl
  have hfinal : [0x1B, 0x5B, 0x75].foldl consolePutc c = consolePutc f 0x75 := rfl
  rw [hfinal, consolePutc_final (by rw [hterm]; rfl) (by decide), hexecute]
  constructor
  · show (if (csiCall f 0x75).termRows ≤ (csiCall f 0x75).savedCursorRow then
      (csiCall f 0x75).termRows - 1 else (csiCall f 0x75).savedCursorRow) = _
    rw [hdisplay, hsaved.1, if_neg (Nat.not_le.mpr hrow)]
  · show (if (csiCall f 0x75).termCols ≤ (csiCall f 0x75).savedCursorCol then
      (csiCall f 0x75).termCols - 1 else (csiCall f 0x75).savedCursorCol) = _
    rw [hdisplay, hsaved.2, if_neg (Nat.not_le.mpr hcol)]

/-- **`CSI u` goes back to where the last `CSI s` was**, or to the first cell if the screen was
cleared by the last control sequence that wrote the saved cursor, whatever has been put and
erased since. -/
theorem restoreCursor_last (c : Console) (hreached : ConsoleReached c) {byte : UInt8}
    (hsaves : c.SavesAt byte) (calls : List ConsoleCall)
    (hsince : SavesNone (consolePutc c byte) calls)
    (hidle : (calls.foldl consoleCall (consolePutc c byte)).ansiParserState ≠ .csi) :
    let d := [0x1B, 0x5B, 0x75].foldl consolePutc (calls.foldl consoleCall (consolePutc c byte))
    d.cursorRow = (if byte = 0x73 then c.cursorRow else 0) ∧
      d.cursorCol = (if byte = 0x73 then c.cursorCol else 0) := by
  intro d
  have hsim := hreached.sim
  obtain ⟨hsavedRow, hsavedCol⟩ := savesNone_saved calls hsince
  obtain ⟨hatRow, hatCol⟩ := consolePutc_saves hsaves
  -- the display is still as large as it was
  have hlater := consoleCalls_sim (boundedOn_drawRel _) calls
    (consolePutc_sim (boundedOn_drawRel _) hsim byte)
  have hgeometry := hlater.display.within.geometry
  have hrow : (if byte = 0x73 then c.cursorRow else 0) < c.termRows := by
    have hcursor : c.cursorRow < c.termRows := hsim.row
    split
    · exact hcursor
    · exact Nat.zero_lt_of_lt hcursor
  have hcol : (if byte = 0x73 then c.cursorCol else 0) < c.termCols := by
    split
    · exact hsim.col
    · exact Nat.zero_lt_of_lt hsim.col
  have hrestore := restoreSequence hidle
    (by rw [hgeometry, hsavedRow, hatRow]; exact hrow)
    (by rw [hgeometry, hsavedCol, hatCol]; exact hcol)
  exact ⟨hrestore.1.trans (hsavedRow.trans hatRow), hrestore.2.trans (hsavedCol.trans hatCol)⟩

/-- ESC `[` behind a cursor movement on a new console. -/
def savedStart : Console :=
  [ConsoleOp.call (.putc 0x1B), .call (.putc 0x5B), .call (.putc 0x43), .call (.putc 0x1B),
    .call (.putc 0x5B)].foldl consoleOp (consoleInit { idleConsole vgaText with trace := [] })

/-- Then `s`, and another movement. -/
theorem restoreCursor_last_start :
    let d := [0x1B, 0x5B, 0x75].foldl consolePutc
      ([ConsoleCall.putc 0x1B, .putc 0x5B, .putc 0x42].foldl consoleCall
        (consolePutc savedStart 0x73))
    d.cursorRow = savedStart.cursorRow ∧ d.cursorCol = savedStart.cursorCol :=
  restoreCursor_last savedStart ⟨idleConsole vgaText, _, rfl⟩ (by decide)
    [.putc 0x1B, .putc 0x5B, .putc 0x42] ⟨by decide, by decide, by decide, trivial⟩ (by decide)

end WaluOs
