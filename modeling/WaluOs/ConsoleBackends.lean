import WaluOs.ConsoleBounds

/-!
# The two backends implement the same terminal

Each drawing function has the same effect on the cells that a display shows,
whichever arrays they are kept in. So a VGA console and a framebuffer console of
the same size that are given the same calls show the same cells.

`SameScreen` relates the two. Which functions are called, and where, is the same on both sides by
`Sim`, so only the drawing functions are looked at here.
-/

namespace WaluOs

/-- The size of VGA text mode, which a framebuffer of 640 by 400 pixels has too. -/
def Geometry.Is80x25 (g : Geometry) : Prop := g.termCols = vgaWidth ∧ g.termRows = vgaHeight

/-- A VGA display and a framebuffer of its size that show the same cells. What is outside the
screen, and the picture, may differ. -/
structure SameScreen (d e : Display) : Prop where
  vga : d.backend = .vga
  fb : e.backend = .fb
  size : d.toGeometry.Is80x25
  size' : e.toGeometry.Is80x25
  cell : ∀ r k, r < vgaHeight → k < vgaWidth → d.cell r k = e.cell r k

variable {d e d' e' : Display}

theorem SameScreen.rows (h : SameScreen d e) : d.termRows = e.termRows :=
  h.size.2.trans h.size'.2.symm

theorem SameScreen.cols (h : SameScreen d e) : d.termCols = e.termCols :=
  h.size.1.trans h.size'.1.symm

theorem SameScreen.rows_pos (h : SameScreen d e) : 0 < d.termRows := by
  rw [h.size.2]
  decide

theorem SameScreen.cols_pos (h : SameScreen d e) : 0 < d.termCols := by
  rw [h.size.1]
  decide

/-- Only the cells have to be looked at again when the geometry stays. -/
theorem SameScreen.step (h : SameScreen d e) (hd : d'.toGeometry = d.toGeometry)
    (he : e'.toGeometry = e.toGeometry)
    (hcell : ∀ r k, r < d.termRows → k < d.termCols → d'.cell r k = e'.cell r k) :
    SameScreen d' e' := by
  refine ⟨?_, ?_, hd ▸ h.size, he ▸ h.size', ?_⟩
  · rw [hd, h.vga]
  · rw [he, h.fb]
  · rw [h.size.1, h.size.2] at hcell
    exact hcell

theorem SameScreen.cell_eq (h : SameScreen d e) {r k : ℕ} (hr : r < d.termRows)
    (hk : k < d.termCols) : d.cell r k = e.cell r k :=
  h.cell r k (h.size.2 ▸ hr) (h.size.1 ▸ hk)

/-- The drawing functions have the same effect on both: what one backend reads or writes as a word
of VGA memory, the other one keeps in its arrays. -/
theorem sameScreen_drawRel : DrawRel SameScreen where
  rows := SameScreen.rows
  cols := SameScreen.cols
  rows_pos := SameScreen.rows_pos
  cols_pos := SameScreen.cols_pos
  notePut := fun h byte => h.step rfl rfl fun _ _ hr hk => h.cell_eq hr hk
  noteEmit := fun h cp => h.step rfl rfl fun _ _ hr hk => h.cell_eq hr hk
  put := by
    intro d e h row col hrow hcol byte hbyte color
    refine h.step (backendPutCell_geometry d row col byte color)
      (backendPutCell_geometry e row col byte color) fun r k hr hk => ?_
    rw [backendPutCell_cell hrow hcol hbyte color hk,
      backendPutCell_cell (h.rows ▸ hrow) (h.cols ▸ hcol) hbyte color (h.cols ▸ hk),
      h.cell_eq hr hk]
  clearAll := by
    intro d e h color
    obtain ⟨hd, hcd⟩ := backendClearAll_spec d color
    obtain ⟨he, hce⟩ := backendClearAll_spec e color
    refine h.step hd he fun r k hr hk => ?_
    rw [hcd r k hr hk, hce r k (h.rows ▸ hr) (h.cols ▸ hk)]
  scrollUp := by
    intro d e h color
    obtain ⟨hd, hcd⟩ := backendScrollUp_spec d color h.rows_pos
    obtain ⟨he, hce⟩ := backendScrollUp_spec e color (h.rows ▸ h.rows_pos)
    refine h.step hd he fun r k hr hk => ?_
    rw [hcd r k hr hk, hce r k (h.rows ▸ hr) (h.cols ▸ hk), ← h.rows]
    split
    · rename_i hnext
      exact h.cell_eq hnext hk
    · rfl

/-- Clearing makes any two displays of that size show the same cells. -/
theorem clearAll_sameScreen (hd : d.backend = .vga) (he : e.backend = .fb)
    (hsize : d.toGeometry.Is80x25) (hsize' : e.toGeometry.Is80x25) (color : UInt8) :
    SameScreen (backendClearAll d color) (backendClearAll e color) := by
  obtain ⟨hgd, hcd⟩ := backendClearAll_spec d color
  obtain ⟨hge, hce⟩ := backendClearAll_spec e color
  refine ⟨?_, ?_, hgd ▸ hsize, hge ▸ hsize', fun r k hr hk => ?_⟩
  · rw [hgd, hd]
  · rw [hge, he]
  · rw [hcd r k (hsize.2 ▸ hr) (hsize.1 ▸ hk), hce r k (hsize'.2 ▸ hr) (hsize'.1 ▸ hk)]

/-- **The backends agree**: after the same calls, in any order and with any bytes,
the two consoles show the same cells and are in the same terminal state. -/
theorem backends_agree {a b : Console} (ha : a.backend = .vga) (hb : b.backend = .fb)
    (hsize : a.toGeometry.Is80x25) (hsize' : b.toGeometry.Is80x25) (calls : List ConsoleCall) :
    let s := calls.foldl consoleCall (consoleClear a)
    let t := calls.foldl consoleCall (consoleClear b)
    (∀ row col, row < vgaHeight → col < vgaWidth →
      s.vgaMemory (row * vgaWidth + col) =
        (t.fbCells row col).toUInt16 ||| ((t.fbCellColors row col).toUInt16 <<< 8)) ∧
      s.toTerm = t.toTerm := by
  intro s t
  have h : Sim SameScreen s t := consoleCalls_sim sameScreen_drawRel calls
    (consoleClear_sim_of_cleared sameScreen_drawRel
      (clearAll_sameScreen ha hb hsize hsize' 0x0F))
  refine ⟨fun row col hrow hcol => ?_, h.term⟩
  have hcell := h.display.cell row col hrow hcol
  rw [Display.cell, Display.cell, h.display.vga, h.display.fb, h.display.size.1] at hcell
  exact hcell

/-- A console on the given display, before its first call: all arrays zero and nothing sent. -/
def idleConsole (g : Geometry) : Console :=
  { g, Term.cleared with
    vgaMemory := fun _ => 0
    fbCells := fun _ _ => 0
    fbCellColors := fun _ _ => 0
    pixels := fun _ => 0
    trace := []
    serialInitialized := false
    serial := [] }

/-- VGA text mode, as `console_init` selects it; the variables of the framebuffer are zero until
one is enabled. -/
def vgaText : Geometry :=
  { backend := .vga, termCols := vgaWidth, termRows := vgaHeight
    fbMemory := 0, fbWidth := 0, fbHeight := 0, fbPitchPixels := 0 }

/-- A framebuffer of 640 by 400 pixels. -/
def fb640x400 : VideoFramebufferInfo :=
  { present := true, mapped := true, physAddr := 0xFD000000, sizeBytes := 0xFA000
    width := 640, height := 400, pitch := 2560, bpp := 32, type := 1 }

/-- Two letters on two lines, the second in red, and a backspace behind it. -/
def redLetter : List ConsoleCall :=
  [0x41, 0x0A, 0x1B, 0x5B, 0x33, 0x31, 0x6D, 0x42].map .putc ++ [.backspace]

theorem backends_agree_fb640x400 :
    let s := redLetter.foldl consoleCall (consoleClear (idleConsole vgaText))
    let t := redLetter.foldl consoleCall (consoleClear (idleConsole fb640x400.geometry))
    (∀ row col, row < vgaHeight → col < vgaWidth →
      s.vgaMemory (row * vgaWidth + col) =
        (t.fbCells row col).toUInt16 ||| ((t.fbCellColors row col).toUInt16 <<< 8)) ∧
      s.toTerm = t.toTerm :=
  backends_agree rfl rfl ⟨rfl, rfl⟩ ⟨by decide, by decide⟩ redLetter

end WaluOs
