import WaluOs.ConsoleScreen

/-!
# Plain text scrolls off an unbounded page

For text without escape sequences the console is a scrolling screen, on either
display: `Tracks` relates it to the page that the text would fill if nothing ever
scrolled.
-/

namespace WaluOs

open Loops Scrollback

/-- Printable ASCII, newline, carriage return and tab: the bytes that move on in a text, without
escape sequences and without anything to decode. -/
def IsText (byte : UInt8) : Prop :=
  (0x20 ≤ byte ∧ byte ≤ 0x7E) ∨ byte = 0x0A ∨ byte = 0x0D ∨ byte = 0x09

instance : DecidablePred IsText := fun _ => inferInstanceAs (Decidable (_ ∨ _))

/-- Lay out a byte of text on a page; a tab writes spaces up to the next multiple of four columns.
A page has no last row, so nothing ever scrolls here. -/
def layByte (cols : ℕ) (p : Page UInt8) (byte : UInt8) : Page UInt8 :=
  if byte = 0x0A then
    p.newline
  else if byte = 0x0D then
    p.ret
  else if byte = 0x09 then
    forRange 0 (4 - p.col % 4) (fun p _ => p.put cols 0x20) p
  else
    p.put cols byte

/-! ## The console as a screen -/

/-- The console, on a display of geometry `g`, shows the screen `s` in the default colours and is
about to read text. The screen is a page that may have been scrolled, with its rows counted from
the top of the display. -/
structure Mirrors (g : Geometry) (c : Console) (s : Page UInt8) : Prop where
  geometry : c.toGeometry = g
  ground : c.ansiParserState = .ground
  color : currentVgaColor c.toTerm = 0x0F
  row : c.cursorRow = s.row
  col : c.cursorCol = s.col
  cell : ∀ r k, r < g.termRows → k < g.termCols → c.cell r k = vgaEntry (s.cells r k) 0x0F

variable {g : Geometry} {c : Console} {s p : Page UInt8}

/-- The screen of a console that draws in white on black. -/
theorem mirrors_iff : Mirrors g c s ↔ Screens g 0x0F c (s.map (vgaEntry · 0x0F)) :=
  ⟨fun ⟨hg, hground, hcolor, hrow, hcol, hcell⟩ => ⟨hg, hground, hcolor, hrow, hcol, hcell⟩,
    fun ⟨hg, hground, hcolor, hrow, hcol, hcell⟩ => ⟨hg, hground, hcolor, hrow, hcol, hcell⟩⟩

theorem scrollIfNeeded_mirrors (h : Mirrors g c s) (hrows : 1 ≤ g.termRows) :
    Mirrors g (scrollIfNeeded c) (s.settle g.termRows 0x20) := by
  rw [mirrors_iff, Page.map_settle]
  exact scrollIfNeeded_screens (mirrors_iff.mp h) hrows

theorem rawPutVisible_mirrors (h : Mirrors g c s) (hrow : s.row < g.termRows)
    (hcol : s.col < g.termCols) {byte : UInt8} (hbyte : byte < 0x80) :
    Mirrors g (rawPutVisible c byte) ((s.put g.termCols byte).settle g.termRows 0x20) := by
  rw [mirrors_iff, Page.map_settle, Page.map_put]
  exact rawPutVisible_screens (mirrors_iff.mp h) hrow hcol hbyte

theorem rawNewline_mirrors (h : Mirrors g c s) (hrows : 1 ≤ g.termRows) :
    Mirrors g (rawNewline c) (s.newline.settle g.termRows 0x20) := by
  obtain ⟨rfl, hground, hcolor, hrow, hcol, hcell⟩ := h
  exact scrollIfNeeded_mirrors ⟨rfl, hground, hcolor, congrArg (· + 1) hrow, rfl, hcell⟩ hrows

/-- Clearing shows a blank screen, whatever there was before. -/
theorem consoleClear_mirrors (c : Console) :
    Mirrors c.toGeometry (consoleClear c) (Page.blank 0x20) := by
  obtain ⟨hg, hcell⟩ := backendClearAll_spec c.toDisplay 0x0F
  have hdisplay := consoleClear_toDisplay c
  rw [← hdisplay] at hg hcell
  exact ⟨hg, rfl, by rw [consoleClear_toTerm]; decide, rfl, rfl, hcell⟩

/-! ## The screen as a window on the page -/

/-- The console shows the last rows of the page `p`. -/
def Tracks (g : Geometry) (c : Console) (p : Page UInt8) : Prop :=
  ∃ s, Mirrors g c s ∧ Shows g.termRows g.termCols 0x20 s p

theorem rawPutVisible_tracks (h : Tracks g c p) {byte : UInt8} (hbyte : byte < 0x80) :
    Tracks g (rawPutVisible c byte) (p.put g.termCols byte) := by
  obtain ⟨s, hm, hs⟩ := h
  exact ⟨_, rawPutVisible_mirrors hm hs.row_lt hs.col_lt hbyte, hs.put byte⟩

theorem rawNewline_tracks (h : Tracks g c p) : Tracks g (rawNewline c) p.newline := by
  obtain ⟨s, hm, hs⟩ := h
  exact ⟨_, rawNewline_mirrors hm (Nat.zero_lt_of_lt hs.row_lt), hs.newline⟩

theorem Tracks.ret (h : Tracks g c p) :
    Tracks g (c.update fun t => { t with cursorCol := 0 }) p.ret := by
  obtain ⟨s, hm, hs⟩ := h
  exact ⟨s.ret, ⟨hm.geometry, hm.ground, hm.color, hm.row, rfl, hm.cell⟩, hs.ret⟩

theorem Tracks.serial (h : Tracks g c p) (byte : UInt8) :
    Tracks g (serialWriteChar c byte) p := by
  obtain ⟨s, hm, hs⟩ := h
  exact ⟨s, mirrors_iff.mpr (serialWriteChar_screens (mirrors_iff.mp hm) byte), hs⟩

/-- Only bytes below the space are control characters. -/
theorem consoleHandleGroundByte_text (c : Console) {byte : UInt8} (hlo : 0x20 ≤ byte) :
    consoleHandleGroundByte c byte =
      if byte < 0x80 then rawPutVisible c byte else consoleEmitUtf8Byte c byte := by
  have hne : ∀ b < (0x20 : UInt8), byte ≠ b := by
    rintro b hb rfl
    exact UInt8.not_lt.mpr hlo hb
  rw [consoleHandleGroundByte]
  rw [if_neg (hne 0x1B (by decide)), if_neg (hne 0x0A (by decide)), if_neg (hne 0x0D (by decide)),
    if_neg (hne 0x08 (by decide)), if_neg (hne 0x09 (by decide)), if_neg (UInt8.not_lt.mpr hlo)]

/-- Printable ASCII is drawn as it is. -/
theorem consoleHandleGroundByte_printable (c : Console) {byte : UInt8} (hlo : 0x20 ≤ byte)
    (hhi : byte ≤ 0x7E) : consoleHandleGroundByte c byte = rawPutVisible c byte := by
  have hascii : byte < 0x80 := UInt8.lt_of_le_of_lt hhi (by decide)
  rw [consoleHandleGroundByte_text c hlo, if_pos hascii]

theorem layByte_printable (cols : ℕ) (p : Page UInt8) {byte : UInt8} (hlo : 0x20 ≤ byte) :
    layByte cols p byte = p.put cols byte := by
  have hne : ∀ b < (0x20 : UInt8), byte ≠ b := by
    rintro b hb rfl
    exact UInt8.not_lt.mpr hlo hb
  rw [layByte]
  rw [if_neg (hne 0x0A (by decide)), if_neg (hne 0x0D (by decide)), if_neg (hne 0x09 (by decide))]

theorem consoleHandleGroundByte_tracks (h : Tracks g c p) {byte : UInt8} (hbyte : IsText byte) :
    Tracks g (consoleHandleGroundByte c byte) (layByte g.termCols p byte) := by
  have hcol : c.cursorCol = p.col := by
    obtain ⟨s, hm, hs⟩ := h
    exact hm.col.trans hs.col
  rcases hbyte with ⟨hlo, hhi⟩ | rfl | rfl | rfl
  · rw [consoleHandleGroundByte_printable c hlo hhi, layByte_printable _ p hlo]
    exact rawPutVisible_tracks h (UInt8.lt_of_le_of_lt hhi (by decide))
  · exact rawNewline_tracks h
  · exact h.ret
  · have htab : layByte g.termCols p 0x09 =
        forRange 0 (4 - c.cursorCol % 4) (fun p _ => p.put g.termCols 0x20) p := by
      rw [hcol]
      rfl
    rw [htab]
    exact forRange_rel (Tracks g) h fun _ c p _ _ hcp => rawPutVisible_tracks hcp (by decide)

/-- A byte of text keeps the console on its page. -/
theorem consolePutc_tracks (h : Tracks g c p) {byte : UInt8} (hbyte : IsText byte) :
    Tracks g (consolePutc c byte) (layByte g.termCols p byte) := by
  have hserial : Tracks g
      (serialWriteChar (if byte = 0x0A then serialWriteChar c 0x0D else c) byte) p := by
    refine Tracks.serial ?_ byte
    split
    · exact h.serial 0x0D
    · exact h
  have hground : (serialWriteChar (if byte = 0x0A then serialWriteChar c 0x0D else c)
      byte).ansiParserState = .ground := by
    obtain ⟨s, hm, -⟩ := hserial
    exact hm.ground
  rw [consolePutc]
  rw [hground]
  exact consoleHandleGroundByte_tracks hserial hbyte

theorem consolePutcs_tracks (bytes : List UInt8) :
    ∀ {c : Console} {p : Page UInt8}, Tracks g c p → (∀ byte ∈ bytes, IsText byte) →
      Tracks g (bytes.foldl consolePutc c) (bytes.foldl (layByte g.termCols) p) := by
  induction bytes with
  | nil => exact fun h _ => h
  | cons byte bytes ih =>
    intro c p h htext
    exact ih (consolePutc_tracks h (htext byte List.mem_cons_self))
      fun b hb => htext b (List.mem_cons_of_mem byte hb)

/-- **A console of any size shows the last rows of the page**: from a cleared
console, after any text, its cells are those of the page from row `offset` on, in
the default colour, and its cursor is the page's. -/
theorem console_shows_page (c : Console) (hrows : 1 ≤ c.termRows) (hcols : 1 ≤ c.termCols)
    {bytes : List UInt8} (htext : ∀ byte ∈ bytes, IsText byte) :
    let s := bytes.foldl consolePutc (consoleClear c)
    let p := bytes.foldl (layByte c.termCols) (Page.blank 0x20)
    let offset := p.row - (c.termRows - 1)
    (∀ row col, row < c.termRows → col < c.termCols →
        s.cell row col = vgaEntry (p.cells (row + offset) col) 0x0F) ∧
      s.cursorRow = p.row - offset ∧ s.cursorCol = p.col := by
  intro s p offset
  have hclear : Tracks c.toGeometry (consoleClear c) (Page.blank 0x20) :=
    ⟨_, consoleClear_mirrors c, Shows.blank hrows hcols 0x20⟩
  obtain ⟨screen, hm, hs⟩ := consolePutcs_tracks bytes hclear htext
  refine ⟨fun row col hrow hcol => ?_, ?_, hm.col.trans hs.col⟩
  · rw [hm.cell row col hrow hcol, hs.cells row col hrow]
    rfl
  · rw [hm.row]
    exact Nat.eq_sub_of_add_eq hs.row

theorem console_shows_page_vgaText :
    let s := [0x41, 0x09, 0x42, 0x0A].foldl consolePutc (consoleClear (idleConsole vgaText))
    let p := [0x41, 0x09, 0x42, 0x0A].foldl (layByte vgaWidth) (Page.blank 0x20)
    let offset := p.row - (vgaHeight - 1)
    (∀ row col, row < vgaHeight → col < vgaWidth →
        s.cell row col = vgaEntry (p.cells (row + offset) col) 0x0F) ∧
      s.cursorRow = p.row - offset ∧ s.cursorCol = p.col := by
  have htext : [0x41, 0x09, 0x42, 0x0A].all (fun byte => decide (IsText byte)) = true := by decide
  exact console_shows_page (idleConsole vgaText) (by decide) (by decide)
    fun byte hbyte => of_decide_eq_true (List.all_eq_true.mp htext byte hbyte)

-- A tab that crosses the right margin of a page three columns wide.
example :
    let p := [0x41, 0x09, 0x42].foldl (layByte 3) (Page.blank 0x20)
    (p.row, p.col, p.cells 1 1, p.cells 1 2) = (1, 2, 0x42, 0x20) := by decide

end WaluOs
