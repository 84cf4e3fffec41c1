import WaluOs.ConsoleBackends
import WaluOs.Scrollback

/-!
# The console as a screen

Between escape sequences the console is a screen of cells with a cursor, on either display.
`Screens` names its cells and the colour it draws in, and each drawing function is then one of
the operations on a page.
-/

namespace WaluOs

open Scrollback

/-- The console, on a display of geometry `g`, shows the cells and the cursor of `s`, draws in
`color` and is about to read text. It relates a console to a page of the library, where what text
does to a screen is stated without a parser. -/
structure Screens (g : Geometry) (color : UInt8) (c : Console) (s : Page UInt16) : Prop where
  geometry : c.toGeometry = g
  ground : c.ansiParserState = .ground
  color : currentVgaColor c.toTerm = color
  row : c.cursorRow = s.row
  col : c.cursorCol = s.col
  cell : ∀ r k, r < g.termRows → k < g.termCols → c.cell r k = s.cells r k

variable {g : Geometry} {color : UInt8} {c : Console} {s : Page UInt16}

theorem scrollIfNeeded_screens (h : Screens g color c s) (hrows : 1 ≤ g.termRows) :
    Screens g color (scrollIfNeeded c) (s.settle g.termRows (vgaEntry 0x20 color)) := by
  obtain ⟨rfl, hground, hcolor, hrow, hcol, hcell⟩ := h
  rw [scrollIfNeeded, Page.settle]
  rw [hrow]
  split
  · exact ⟨rfl, hground, hcolor, hrow, hcol, hcell⟩
  · obtain ⟨hg, hscroll⟩ := backendScrollUp_spec c.toDisplay (currentVgaColor c.toTerm) hrows
    refine ⟨hg, hground, hcolor, rfl, hcol, fun r k hr hk => ?_⟩
    refine (hscroll r k hr hk).trans ?_
    rw [hcolor]
    dsimp only
    split
    · rename_i hnext
      exact hcell (r + 1) k hnext hk
    · rfl

theorem advanceCursor_screens (h : Screens g color c s) :
    Screens g color (advanceCursor c) (s.advance g.termCols) := by
  obtain ⟨rfl, hground, hcolor, hrow, hcol, hcell⟩ := h
  have hwrap : c.termCols ≤ c.cursorCol + 1 ↔ c.termCols ≤ s.col + 1 := by rw [hcol]
  rw [advanceCursor, Page.advance]
  split
  · rename_i hmargin
    rw [if_pos (hwrap.mp hmargin), if_pos (hwrap.mp hmargin)]
    exact ⟨rfl, hground, hcolor, congrArg (· + 1) hrow, rfl, hcell⟩
  · rename_i hinner
    rw [if_neg (mt hwrap.mpr hinner), if_neg (mt hwrap.mpr hinner)]
    exact ⟨rfl, hground, hcolor, hrow, congrArg (· + 1) hcol, hcell⟩

theorem retreatCursor_screens (h : Screens g color c s) :
    Screens g color (retreatCursor c) (s.retreat g.termCols) := by
  obtain ⟨rfl, hground, hcolor, hrow, hcol, hcell⟩ := h
  have hmargin : c.cursorCol = 0 ↔ s.col = 0 := by rw [hcol]
  rw [retreatCursor, Page.retreat]
  split
  · rename_i hzero
    rw [if_pos (hmargin.mp hzero)]
    exact ⟨rfl, hground, hcolor, congrArg (· - 1) hrow, rfl, hcell⟩
  · rename_i hinner
    rw [if_neg (mt hmargin.mpr hinner)]
    exact ⟨rfl, hground, hcolor, hrow, congrArg (· - 1) hcol, hcell⟩

/-- A put at a cursor that is on the screen, with or without a note of it. -/
theorem putAtCursor_screens (h : Screens g color c s) (hrow : s.row < g.termRows)
    (hcol : s.col < g.termCols) {byte : UInt8} (hbyte : byte < 0x80) {d : Display}
    (hd : d.toGeometry = g) (hcells : d.cell = c.cell) :
    Screens g color (c.draw fun _ => backendPutCell d c.cursorRow c.cursorCol byte
      (currentVgaColor c.toTerm)) (s.write (vgaEntry byte color)) := by
  obtain ⟨rfl, hground, hcolor, hr, hc, hcell⟩ := h
  refine ⟨(backendPutCell_geometry _ _ _ _ _).trans hd, hground, hcolor, hr, hc,
    fun r k hrk hk => ?_⟩
  have hrow' : c.cursorRow < d.termRows := by rwa [hd, hr]
  have hcol' : c.cursorCol < d.termCols := by rwa [hd, hc]
  have hput := backendPutCell_cell hrow' hcol' hbyte (currentVgaColor c.toTerm)
    (r := r) (k := k) (by rwa [hd])
  refine hput.trans ?_
  rw [hcolor, hr, hc, hcells]
  simp only [Page.write]
  split
  · rfl
  · exact hcell r k hrk hk

theorem rawPutVisible_screens (h : Screens g color c s) (hrow : s.row < g.termRows)
    (hcol : s.col < g.termCols) {byte : UInt8} (hbyte : byte < 0x80) :
    Screens g color (rawPutVisible c byte)
      ((s.put g.termCols (vgaEntry byte color)).settle g.termRows (vgaEntry 0x20 color)) :=
  scrollIfNeeded_screens (advanceCursor_screens (putAtCursor_screens h hrow hcol hbyte
    (d := c.note (.rawPutVisible byte)) h.geometry rfl)) (Nat.zero_lt_of_lt hrow)

/-- A backspace, unless the cursor is at the first cell of the screen. -/
theorem consoleBackspace_screens (h : Screens g color c s) (hrow : s.row < g.termRows)
    (hcol : s.col < g.termCols) (hfirst : ¬(s.col = 0 ∧ s.row = 0)) :
    Screens g color (consoleBackspace c) (s.erase g.termCols (vgaEntry 0x20 color)) := by
  have hinside : (s.retreat g.termCols).row < g.termRows ∧
      (s.retreat g.termCols).col < g.termCols := by
    rw [Page.retreat]
    split
    · exact ⟨Nat.lt_of_le_of_lt (Nat.sub_le ..) hrow,
        Nat.sub_lt (Nat.zero_lt_of_lt hcol) Nat.one_pos⟩
    · exact ⟨hrow, Nat.lt_of_le_of_lt (Nat.sub_le ..) hcol⟩
  have hmoves : ¬(c.cursorCol = 0 ∧ c.cursorRow = 0) := by rwa [h.row, h.col]
  have hretreat := retreatCursor_screens h
  rw [consoleBackspace, if_neg hmoves]
  exact putAtCursor_screens hretreat hinside.1 hinside.2 (by decide) hretreat.geometry rfl

theorem serialWriteChar_screens (h : Screens g color c s) (byte : UInt8) :
    Screens g color (serialWriteChar c byte) s := by
  rw [serialWriteChar]
  split
  · exact ⟨h.geometry, h.ground, h.color, h.row, h.col, h.cell⟩
  · exact h

end WaluOs
