import WaluOs.ConsoleBackends

/-!
# The picture on a framebuffer

A framebuffer console keeps its characters twice: in the cell arrays and, drawn
with the font, in the picture. Nothing ever reads the picture back, so each change
of a cell has to be followed by a drawing of that cell.

Two things are said of every drawing function. `Display.Plotted` collects the words
of the framebuffer that were written, and it needs nothing but a size for which the
32-bit index does not wrap. What a pixel then shows, `Display.pixelAt`, needs in
addition that a line of pixels fits in the pitch, so that pixels do not share words.
-/

namespace WaluOs

open Loops

/-- The colour of one pixel of a cell: the foreground where the font has a dot, the background
elsewhere. Each row of the font is drawn twice, and characters from 128 on are shown as a question
mark. -/
def glyphPixel (c color : UInt8) (gx gy : ℕ) : UInt32 :=
  if (font8x8Row (if 128 ≤ c then 0x3F else c) (gy / 2)).toNat.testBit gx then
    vgaPaletteRgb (color &&& 0x0F)
  else
    vgaPaletteRgb ((color >>> 4) &&& 0x0F)

/-- What a pixel of the framebuffer shows, found as the hardware finds it, by address. -/
def Display.pixelAt (d : Display) (x y : ℕ) : UInt32 :=
  d.pixels (d.fbMemory + 4 * (y * d.fbPitchPixels + x))

/-- `fb_memory[i]` was written at some time. What it shows now is another question. -/
def Display.Plotted (d : Display) (i : ℕ) : Prop := .pixel i ∈ d.trace

/-- The cells fit on the framebuffer, and the index of no pixel of a cell wraps. This much follows
from what `console_enable_framebuffer` checks. -/
structure Geometry.Framed (g : Geometry) : Prop where
  cols : g.termCols * glyphWidth ≤ g.fbWidth
  rows : g.termRows * glyphHeight ≤ g.fbHeight
  width : g.fbWidth < 2 ^ 32
  height : g.fbHeight < 2 ^ 32
  index : ∀ {x y}, x < g.termCols * glyphWidth → y < g.termRows * glyphHeight →
    y * g.fbPitchPixels + x < 2 ^ 32

/-- The pixels of one cell, as indices of `fb_memory`. -/
def Geometry.Tile (g : Geometry) (row col i : ℕ) : Prop :=
  ∃ gy < glyphHeight, ∃ gx < glyphWidth,
    i = (row * glyphHeight + gy) * g.fbPitchPixels + (col * glyphWidth + gx)

/-- The pixels of all cells. -/
def Geometry.Area (g : Geometry) (i : ℕ) : Prop :=
  ∃ x < g.termCols * glyphWidth, ∃ y < g.termRows * glyphHeight, i = y * g.fbPitchPixels + x

variable {g : Geometry} {d : Display}

/-! ## The positions of pixels -/

theorem tile_lt {n size k j : ℕ} (hk : k < n) (hj : j < size) : k * size + j < n * size :=
  calc k * size + j < k * size + size := Nat.add_lt_add_left hj _
    _ = (k + 1) * size := (Nat.succ_mul k size).symm
    _ ≤ n * size := Nat.mul_le_mul_right size hk

/-- The cells cover the area. -/
theorem Geometry.area_iff (g : Geometry) (i : ℕ) :
    g.Area i ↔ ∃ row < g.termRows, ∃ col < g.termCols, g.Tile row col i := by
  constructor
  · rintro ⟨x, hx, y, hy, rfl⟩
    refine ⟨y / glyphHeight, Nat.div_lt_of_lt_mul (Nat.mul_comm _ _ ▸ hy), x / glyphWidth,
      Nat.div_lt_of_lt_mul (Nat.mul_comm _ _ ▸ hx), y % glyphHeight, Nat.mod_lt _ (by decide),
      x % glyphWidth, Nat.mod_lt _ (by decide), ?_⟩
    rw [Nat.div_add_mod', Nat.div_add_mod']
  · rintro ⟨row, hrow, col, hcol, gy, hgy, gx, hgx, rfl⟩
    exact ⟨_, tile_lt hcol hgx, _, tile_lt hrow hgy, rfl⟩

/-- Two pixels within the pitch share a word only if they are the same. -/
theorem pixelIndex_inj {pitch x y x' y' : ℕ} (hx : x < pitch) (hx' : x' < pitch) :
    y * pitch + x = y' * pitch + x' ↔ x = x' ∧ y = y' := by
  rw [Scrollback.position_eq_iff hx hx']
  exact And.comm

/-! ## Which words are written -/

theorem Display.plotted_note {d : Display} {e : ConsoleEvent} (he : ∀ i, e ≠ .pixel i) (i : ℕ) :
    (d.note e).Plotted i ↔ d.Plotted i := by
  rw [Plotted, note, List.mem_append, List.mem_singleton]
  constructor
  · rintro (h | h)
    · exact h
    · exact absurd h.symm (he i)
  · exact .inl

theorem fbPlot_plotted {x y : ℕ} (hx : x < d.fbWidth) (hy : y < d.fbHeight)
    (hindex : y * d.fbPitchPixels + x < 2 ^ 32) (rgb : UInt32) (i : ℕ) :
    (fbPlot d x y rgb).Plotted i ↔
      d.Plotted i ∨ d.fbMemory ≠ 0 ∧ i = y * d.fbPitchPixels + x := by
  rw [fbPlot]
  by_cases hmem : d.fbMemory = 0
  · rw [if_pos (.inl hmem)]
    simp [hmem]
  · rw [if_neg (by omega)]
    simp only [Display.Plotted, Display.note, List.mem_append, List.mem_singleton,
      ConsoleEvent.pixel.injEq, Nat.mod_eq_of_lt hindex]
    simp [hmem]

/-- One line of the pixels of a cell. -/
def plotLine (row col : ℕ) (c color : UInt8) (d : Display) (gy : ℕ) : Display :=
  forRange 0 glyphWidth (fun d gx =>
    fbPlot d ((col * glyphWidth + gx) % 2 ^ 32) ((row * glyphHeight + gy) % 2 ^ 32)
      (glyphPixel c color gx gy)) d

/-- Without the checks that cannot fail, drawing a cell is drawing its lines. -/
theorem fbDrawCell_eq (hg : g.Framed) (hd : d.toGeometry = g) {row col : ℕ}
    (hrow : row < g.termRows) (hcol : col < g.termCols) (c color : UInt8) :
    fbDrawCell d row col c color = forRange 0 glyphHeight (plotLine row col c color) d := by
  obtain ⟨hcols, hrows, hwidth, hheight, -⟩ := hg
  have hx : (col + 1) * glyphWidth ≤ g.fbWidth := (Nat.mul_le_mul_right _ hcol).trans hcols
  have hy : (row + 1) * glyphHeight ≤ g.fbHeight := (Nat.mul_le_mul_right _ hrow).trans hrows
  subst hd
  simp only [glyphWidth, glyphHeight] at hx hy ⊢
  have hx0 : col * 8 % 2 ^ 32 = col * 8 := Nat.mod_eq_of_lt (by omega)
  have hy0 : row * 16 % 2 ^ 32 = row * 16 := Nat.mod_eq_of_lt (by omega)
  rw [fbDrawCell, if_neg (by omega)]
  simp only [glyphWidth, glyphHeight, hx0, hy0]
  rw [if_neg (by omega)]
  rfl

/-- A pixel of a cell is on the framebuffer. -/
theorem Geometry.Framed.pixel (hg : g.Framed) {row col gx gy : ℕ} (hrow : row < g.termRows)
    (hcol : col < g.termCols) (hgx : gx < glyphWidth) (hgy : gy < glyphHeight) :
    (col * glyphWidth + gx < g.fbWidth ∧ row * glyphHeight + gy < g.fbHeight) ∧
      (row * glyphHeight + gy) * g.fbPitchPixels + (col * glyphWidth + gx) < 2 ^ 32 :=
  ⟨⟨(tile_lt hcol hgx).trans_le hg.cols, (tile_lt hrow hgy).trans_le hg.rows⟩,
    hg.index (tile_lt hcol hgx) (tile_lt hrow hgy)⟩

theorem fbPlot_geometry (hd : d.toGeometry = g) (x y : ℕ) (rgb : UInt32) :
    (fbPlot d x y rgb).toGeometry = g :=
  (fbPlot_sameCells d x y rgb).geometry.trans hd

theorem plotLine_geometry (hd : d.toGeometry = g) (row col : ℕ) (c color : UInt8) (gy : ℕ) :
    (plotLine row col c color d gy).toGeometry = g := by
  refine forRange_rule (fun _ (t : Display) => t.toGeometry = g) (Nat.zero_le _) hd ?_
  intro gx t _ _ ht
  exact fbPlot_geometry ht _ _ _

theorem plotLine_plotted (hg : g.Framed) (hd : d.toGeometry = g) {row col : ℕ}
    (hrow : row < g.termRows) (hcol : col < g.termCols) (c color : UInt8) {gy : ℕ}
    (hgy : gy < glyphHeight) (i : ℕ) :
    (plotLine row col c color d gy).Plotted i ↔ d.Plotted i ∨ ∃ gx < glyphWidth, g.fbMemory ≠ 0 ∧
      i = (row * glyphHeight + gy) * g.fbPitchPixels + (col * glyphWidth + gx) := by
  rw [plotLine, forRange_collects (fun t : Display => t.toGeometry = g) Display.Plotted hd
    fun gx t _ ht => fbPlot_geometry ht _ _ _]
  intro gx t hgx ht i
  obtain ⟨⟨hx, hy⟩, hindex⟩ := hg.pixel hrow hcol hgx hgy
  rw [Nat.mod_eq_of_lt (hx.trans hg.width), Nat.mod_eq_of_lt (hy.trans hg.height)]
  subst ht
  exact fbPlot_plotted hx hy hindex _ i

theorem fbDrawCell_plotted (hg : g.Framed) (hd : d.toGeometry = g) {row col : ℕ}
    (hrow : row < g.termRows) (hcol : col < g.termCols) (c color : UInt8) (i : ℕ) :
    (fbDrawCell d row col c color).Plotted i ↔
      d.Plotted i ∨ g.fbMemory ≠ 0 ∧ g.Tile row col i := by
  have hlines := forRange_collects (fun t : Display => t.toGeometry = g) Display.Plotted hd
    (fun gy t _ ht => plotLine_geometry ht row col c color gy)
    (fun gy t hgy ht => plotLine_plotted hg ht hrow hcol c color hgy) i
  rw [fbDrawCell_eq hg hd hrow hcol, hlines]
  refine or_congr_right ⟨?_, ?_⟩
  · rintro ⟨gy, hgy, gx, hgx, hmem, hi⟩
    exact ⟨hmem, gy, hgy, gx, hgx, hi⟩
  · rintro ⟨hmem, gy, hgy, gx, hgx, hi⟩
    exact ⟨gy, hgy, gx, hgx, hmem, hi⟩

/-- A round of the loops that draw all cells. -/
def redrawCell (y : ℕ) (d : Display) (x : ℕ) : Display :=
  fbDrawCell ((d.note (.fbCell y x)).note (.fbCellColor y x)) y x (d.fbCells y x)
    (d.fbCellColors y x)

theorem redrawCell_sameCells (y : ℕ) (d : Display) (x : ℕ) : SameCells d (redrawCell y d x) :=
  ((d.note_sameCells _).trans (Display.note_sameCells _ _)).trans (fbDrawCell_sameCells _ y x _ _)

theorem redrawCell_plotted (hg : g.Framed) (hd : d.toGeometry = g) {y x : ℕ}
    (hy : y < g.termRows) (hx : x < g.termCols) (i : ℕ) :
    (redrawCell y d x).Plotted i ↔ d.Plotted i ∨ g.fbMemory ≠ 0 ∧ g.Tile y x i := by
  rw [redrawCell, fbDrawCell_plotted hg (by exact hd) hy hx,
    Display.plotted_note (e := .fbCellColor y x) nofun,
    Display.plotted_note (e := .fbCell y x) nofun]

/-- A row of the loops that draw all cells. -/
def redrawRow (d : Display) (y : ℕ) : Display := forRange 0 d.termCols (redrawCell y) d

theorem fbRedrawFull_eq (d : Display) : fbRedrawFull d = forRange 0 d.termRows redrawRow d := rfl

theorem redrawRow_sameCells (d : Display) (y : ℕ) : SameCells d (redrawRow d y) :=
  forRange_invariant (SameCells.refl d) fun x t _ _ ht => ht.trans (redrawCell_sameCells y t x)

theorem redrawRow_plotted (hg : g.Framed) (hd : d.toGeometry = g) {y : ℕ} (hy : y < g.termRows)
    (i : ℕ) :
    (redrawRow d y).Plotted i ↔
      d.Plotted i ∨ ∃ x < g.termCols, g.fbMemory ≠ 0 ∧ g.Tile y x i := by
  subst hd
  rw [redrawRow, forRange_collects (fun t : Display => t.toGeometry = d.toGeometry) Display.Plotted
    rfl fun x t _ ht => (redrawCell_sameCells y t x).geometry.trans ht]
  exact fun x t hx ht => redrawCell_plotted hg ht hy hx

/-- Drawing all cells writes the whole area. -/
theorem fbRedrawFull_plotted (hg : g.Framed) (hd : d.toGeometry = g) (i : ℕ) :
    (fbRedrawFull d).Plotted i ↔ d.Plotted i ∨ g.fbMemory ≠ 0 ∧ g.Area i := by
  subst hd
  have hrows := forRange_collects (fun t : Display => t.toGeometry = d.toGeometry) Display.Plotted
    rfl
    (fun y t _ ht => (redrawRow_sameCells t y).geometry.trans ht)
    (fun y t hy ht => redrawRow_plotted hg ht hy) i
  rw [fbRedrawFull_eq, hrows, Geometry.area_iff]
  refine or_congr_right ⟨?_, ?_⟩
  · rintro ⟨row, hrow, col, hcol, hmem, htile⟩
    exact ⟨hmem, row, hrow, col, hcol, htile⟩
  · rintro ⟨hmem, row, hrow, col, hcol, htile⟩
    exact ⟨row, hrow, col, hcol, hmem, htile⟩

/-! ## Changing cells changes no pixel -/

/-- `e` differs from `d` in the cells and the trace of their accesses at most. -/
structure SamePicture (d e : Display) : Prop where
  geometry : e.toGeometry = d.toGeometry
  pixels : e.pixels = d.pixels
  plotted : ∀ i, e.Plotted i ↔ d.Plotted i

theorem SamePicture.refl (d : Display) : SamePicture d d := ⟨rfl, rfl, fun _ => Iff.rfl⟩

theorem SamePicture.trans {d e f : Display} (h : SamePicture d e) (h' : SamePicture e f) :
    SamePicture d f :=
  ⟨h'.geometry.trans h.geometry, h'.pixels.trans h.pixels,
    fun i => (h'.plotted i).trans (h.plotted i)⟩

theorem SamePicture.pixelAt {d e : Display} (h : SamePicture d e) : e.pixelAt = d.pixelAt := by
  funext x y
  rw [Display.pixelAt, Display.pixelAt, h.geometry, h.pixels]

theorem note_samePicture (d : Display) {e : ConsoleEvent} (he : ∀ i, e ≠ .pixel i) :
    SamePicture d (d.note e) :=
  ⟨rfl, rfl, Display.plotted_note he⟩

theorem vgaStore_samePicture (d : Display) (i : ℕ) (value : UInt16) :
    SamePicture d (vgaStore d i value) :=
  ⟨rfl, rfl, Display.plotted_note (e := .vgaCell i) nofun⟩

theorem fbStoreCell_samePicture (d : Display) (row col : ℕ) (c : UInt8) :
    SamePicture d (fbStoreCell d row col c) :=
  ⟨rfl, rfl, Display.plotted_note (e := .fbCell row col) nofun⟩

theorem fbStoreColor_samePicture (d : Display) (row col : ℕ) (color : UInt8) :
    SamePicture d (fbStoreColor d row col color) :=
  ⟨rfl, rfl, Display.plotted_note (e := .fbCellColor row col) nofun⟩

/-- A loop whose rounds change no pixel. -/
theorem forRange_samePicture {first last : ℕ} {body : Display → ℕ → Display}
    (h : ∀ i t, SamePicture t (body t i)) (d : Display) :
    SamePicture d (forRange first last body d) :=
  forRange_invariant (SamePicture.refl d) fun i t _ _ ht => ht.trans (h i t)

/-- Storing a character and its colour. -/
theorem fbStore_samePicture (d : Display) (row col : ℕ) (c color : UInt8) :
    SamePicture d (fbStoreColor (fbStoreCell d row col c) row col color) :=
  (fbStoreCell_samePicture d row col c).trans (fbStoreColor_samePicture _ row col color)

theorem vgaCopyCell_samePicture (d : Display) (y x : ℕ) : SamePicture d (vgaCopyCell d y x) :=
  (note_samePicture d (e := .vgaCell (y * d.termCols + x)) nofun).trans
    (vgaStore_samePicture _ _ _)

/-- A VGA console draws no pixels. -/
theorem backendPutCell_vga (hb : d.backend = .vga) (row col : ℕ) (c color : UInt8) :
    SamePicture d (backendPutCell d row col c color) := by
  have hother : ∀ i, ConsoleEvent.discarded row col ≠ .pixel i := nofun
  rw [backendPutCell]
  split
  · exact note_samePicture d hother
  · rw [hb]
    exact vgaStore_samePicture d _ _

theorem backendClearAll_vga (hb : d.backend = .vga) (color : UInt8) :
    SamePicture d (backendClearAll d color) := by
  rw [backendClearAll, hb]
  exact forRange_samePicture
    (fun y t => forRange_samePicture (fun x u => vgaStore_samePicture u _ _) t) d

theorem backendScrollUp_vga (hb : d.backend = .vga) (color : UInt8) :
    SamePicture d (backendScrollUp d color) := by
  rw [backendScrollUp, hb]
  exact (forRange_samePicture (fun y t => forRange_samePicture
      (fun x u => vgaCopyCell_samePicture u y x) t) d).trans
    (forRange_samePicture (fun x t => vgaStore_samePicture t _ _) _)

/-- The cells of a framebuffer before they are all drawn again. -/
def clearedCells (d : Display) (color : UInt8) : Display :=
  forRange 0 d.termRows (fun d y =>
    forRange 0 d.termCols (fun d x =>
      fbStoreColor (fbStoreCell d y x 0x20) y x color) d) d

/-- The cells of a framebuffer after scrolling, before they are all drawn again. -/
def scrolledCells (d : Display) (color : UInt8) : Display :=
  let d := forRange 1 d.termRows (fun d y => fbCopyColors (fbCopyCells d y) y) d
  forRange 0 d.termCols (fun d x =>
    fbStoreColor (fbStoreCell d (d.termRows - 1) x 0x20) (d.termRows - 1) x color) d

theorem backendClearAll_fb (hb : d.backend = .fb) (color : UInt8) :
    backendClearAll d color = fbRedrawFull (clearedCells d color) := by
  rw [backendClearAll, hb]
  rfl

theorem backendScrollUp_fb (hb : d.backend = .fb) (color : UInt8) :
    backendScrollUp d color = fbRedrawFull (scrolledCells d color) := by
  rw [backendScrollUp, hb]
  rfl

theorem clearedCells_samePicture (d : Display) (color : UInt8) :
    SamePicture d (clearedCells d color) :=
  forRange_samePicture
    (fun y t => forRange_samePicture (fun x u => fbStore_samePicture u y x 0x20 color) t) d

theorem scrolledCells_samePicture (d : Display) (color : UInt8) :
    SamePicture d (scrolledCells d color) := by
  have hcells : ∀ y t, SamePicture t (fbCopyCells t y) := fun y t =>
    forRange_samePicture (fun x u => (note_samePicture u (e := .fbCell y x) nofun).trans
      (fbStoreCell_samePicture _ _ x _)) t
  have hcolors : ∀ y t, SamePicture t (fbCopyColors t y) := fun y t =>
    forRange_samePicture (fun x u => (note_samePicture u (e := .fbCellColor y x) nofun).trans
      (fbStoreColor_samePicture _ _ x _)) t
  exact (forRange_samePicture (fun y t => (hcells y t).trans (hcolors y _)) d).trans
    (forRange_samePicture (fun x t => fbStore_samePicture t _ x 0x20 color) _)

/-! ## What the backends write -/

/-- A framebuffer console draws the cell it puts. -/
theorem backendPutCell_plotted (hg : g.Framed) (hb : g.backend = .fb) (hd : d.toGeometry = g)
    {row col : ℕ} (hrow : row < g.termRows) (hcol : col < g.termCols) (c color : UInt8) (i : ℕ) :
    (backendPutCell d row col c color).Plotted i ↔
      d.Plotted i ∨ g.fbMemory ≠ 0 ∧ g.Tile row col i := by
  subst hd
  rw [backendPutCell, if_neg (by omega), hb]
  dsimp only
  have hstore := fbStore_samePicture d row col c color
  rw [fbDrawCell_plotted hg hstore.geometry hrow hcol, hstore.plotted]

theorem backendClearAll_plotted (hg : g.Framed) (hb : g.backend = .fb) (hd : d.toGeometry = g)
    (color : UInt8) (i : ℕ) :
    (backendClearAll d color).Plotted i ↔ d.Plotted i ∨ g.fbMemory ≠ 0 ∧ g.Area i := by
  subst hd
  have hcells := clearedCells_samePicture d color
  rw [backendClearAll_fb hb, fbRedrawFull_plotted hg hcells.geometry, hcells.plotted]

theorem backendScrollUp_plotted (hg : g.Framed) (hb : g.backend = .fb) (hd : d.toGeometry = g)
    (color : UInt8) (i : ℕ) :
    (backendScrollUp d color).Plotted i ↔ d.Plotted i ∨ g.fbMemory ≠ 0 ∧ g.Area i := by
  subst hd
  have hcells := scrolledCells_samePicture d color
  rw [backendScrollUp_fb hb, fbRedrawFull_plotted hg hcells.geometry, hcells.plotted]

/-! ## What a pixel shows -/

/-- A line of pixels fits in the pitch, so no two pixels share a word. -/
structure Geometry.Drawable (g : Geometry) : Prop extends Geometry.Framed g where
  memory : g.fbMemory ≠ 0
  pitch : g.fbWidth ≤ g.fbPitchPixels

theorem fbPlot_pixelAt (hg : g.Drawable) (hd : d.toGeometry = g) {x y : ℕ}
    (hx : x < g.fbWidth) (hy : y < g.fbHeight) (hindex : y * g.fbPitchPixels + x < 2 ^ 32)
    (rgb : UInt32) {x' y' : ℕ} (hx' : x' < g.fbWidth) :
    Sets (fun d : Display => d.pixelAt x' y') (x' = x ∧ y' = y) rgb d (fbPlot d x y rgb) := by
  subst hd
  have hplotted : (fbPlot d x y rgb).pixelAt x' y' =
      Function.update d.pixels (d.fbMemory + 4 * (y * d.fbPitchPixels + x)) rgb
        (d.fbMemory + 4 * (y' * d.fbPitchPixels + x')) := by
    rw [fbPlot, if_neg (by simp only [hg.memory, false_or]; omega), Nat.mod_eq_of_lt hindex]
    rfl
  have hinj := @pixelIndex_inj _ x' y' x y (hx'.trans_le hg.pitch) (hx.trans_le hg.pitch)
  constructor
  · rintro ⟨rfl, rfl⟩
    rw [hplotted, Function.update_self]
  · intro hne
    rw [hplotted, Function.update_of_ne]
    · rfl
    · intro haddr
      exact hne (hinj.mp (by omega))

/-- Which cell a pixel belongs to. -/
theorem tile_iff {size k n : ℕ} : (∃ j < size, n = k * size + j) ↔ n / size = k ∧ 0 < size := by
  constructor
  · rintro ⟨j, hj, rfl⟩
    refine ⟨?_, Nat.zero_lt_of_lt hj⟩
    exact Scrollback.div_cols hj k
  · rintro ⟨rfl, hpos⟩
    exact ⟨n % size, Nat.mod_lt n hpos, (Nat.div_add_mod' n size).symm⟩

/-- Drawing a line of a cell draws its pixels and leaves all others. -/
theorem plotLine_pixelAt (hg : g.Drawable) (hd : d.toGeometry = g) {row col : ℕ}
    (hrow : row < g.termRows) (hcol : col < g.termCols) (c color : UInt8) {gy : ℕ}
    (hgy : gy < glyphHeight) {x y : ℕ} (hx : x < g.fbWidth) :
    Sets (fun d : Display => d.pixelAt x y)
      (∃ gx < glyphWidth, x = col * glyphWidth + gx ∧ y = row * glyphHeight + gy)
      (glyphPixel c color (x % glyphWidth) (y % glyphHeight)) d
      (plotLine row col c color d gy) := by
  rw [plotLine]
  refine forRange_sets (fun t : Display => t.toGeometry = g)
    (fun t : Display => t.pixelAt x y) hd
    (fun gx t _ ht => fbPlot_geometry ht _ _ _) fun gx t hgx ht => ?_
  obtain ⟨⟨hpx, hpy⟩, hindex⟩ := hg.pixel hrow hcol hgx hgy
  rw [Nat.mod_eq_of_lt (hpx.trans hg.width), Nat.mod_eq_of_lt (hpy.trans hg.height)]
  have hset := @fbPlot_pixelAt g t hg ht _ _ hpx hpy hindex (glyphPixel c color gx gy) x y hx
  refine ⟨?_, hset.kept⟩
  rintro ⟨rfl, rfl⟩
  rw [Nat.mul_add_mod_of_lt hgx, Nat.mul_add_mod_of_lt hgy]
  exact hset.set ⟨rfl, rfl⟩

/-- Drawing a cell draws its pixels and leaves those of the other cells. -/
theorem fbDrawCell_pixelAt (hg : g.Drawable) (hd : d.toGeometry = g) {row col : ℕ}
    (hrow : row < g.termRows) (hcol : col < g.termCols) (c color : UInt8) {x y : ℕ}
    (hx : x < g.fbWidth) :
    Sets (fun d : Display => d.pixelAt x y) (y / glyphHeight = row ∧ x / glyphWidth = col)
      (glyphPixel c color (x % glyphWidth) (y % glyphHeight)) d (fbDrawCell d row col c color) := by
  rw [fbDrawCell_eq hg.toFramed hd hrow hcol]
  have hlines := forRange_sets (fun t : Display => t.toGeometry = g)
    (fun t : Display => t.pixelAt x y) hd
    (fun gy t _ ht => plotLine_geometry ht row col c color gy)
    (fun gy t hgy ht => plotLine_pixelAt hg ht hrow hcol c color hgy (y := y) hx)
  refine hlines.congr ⟨?_, ?_⟩
  · rintro ⟨gy, hgy, gx, hgx, hcolx, hrowy⟩
    exact ⟨(tile_iff.mp ⟨gy, hgy, hrowy⟩).1, (tile_iff.mp ⟨gx, hgx, hcolx⟩).1⟩
  · rintro ⟨hrowy, hcolx⟩
    obtain ⟨gy, hgy, hy⟩ := tile_iff.mpr ⟨hrowy, show 0 < glyphHeight by decide⟩
    obtain ⟨gx, hgx, hx⟩ := tile_iff.mpr ⟨hcolx, show 0 < glyphWidth by decide⟩
    exact ⟨gy, hgy, gx, hgx, hx, hy⟩

/-! ## The picture shows the cells -/

/-- What the cells say a pixel should show. -/
def CellStore.picture (s : CellStore) (x y : ℕ) : UInt32 :=
  glyphPixel (s.fbCells (y / glyphHeight) (x / glyphWidth))
    (s.fbCellColors (y / glyphHeight) (x / glyphWidth)) (x % glyphWidth) (y % glyphHeight)

/-- Every pixel of every cell shows what it should. -/
def Display.Painted (d : Display) : Prop :=
  ∀ x y, x < d.termCols * glyphWidth → y < d.termRows * glyphHeight →
    d.pixelAt x y = d.picture x y

theorem redrawRow_pixelAt (hg : g.Drawable) (hd : d.toGeometry = g) {y : ℕ}
    (hy : y < g.termRows) {x' y' : ℕ} (hx' : x' < g.fbWidth) :
    Sets (fun d : Display => d.pixelAt x' y')
      (∃ x < g.termCols, y' / glyphHeight = y ∧ x' / glyphWidth = x)
      (d.picture x' y') d (redrawRow d y) := by
  subst hd
  rw [redrawRow]
  refine forRange_sets (fun t : Display => SameCells d t) _ (SameCells.refl d)
    (fun x t _ ht => ht.trans (redrawCell_sameCells y t x)) fun x t hx ht => ?_
  have hcell := fbDrawCell_pixelAt hg (d := (t.note (.fbCell y x)).note (.fbCellColor y x))
    ht.geometry hy hx (t.fbCells y x) (t.fbCellColors y x) (y := y') hx'
  refine ⟨?_, hcell.kept⟩
  rintro ⟨rfl, rfl⟩
  rw [CellStore.picture, ← ht.store]
  exact hcell.set ⟨rfl, rfl⟩

/-- After all cells were drawn every pixel is right, whatever it showed before. -/
theorem fbRedrawFull_painted (hg : d.toGeometry.Drawable) : (fbRedrawFull d).Painted := by
  have hsame := fbRedrawFull_sameCells d
  intro x y hx hy
  rw [hsame.geometry] at hx hy
  have hwidth : x < d.fbWidth := hx.trans_le hg.cols
  have hrows := forRange_sets (fun t : Display => SameCells d t)
    (fun t : Display => t.pixelAt x y) (SameCells.refl d)
    (fun y t _ ht => ht.trans (redrawRow_sameCells t y)) (v := d.picture x y) (fun row t hrow ht => by
      rw [← ht.store]
      exact redrawRow_pixelAt hg ht.geometry hrow hwidth)
  rw [hsame.store]
  exact hrows.set ⟨y / glyphHeight, Nat.div_lt_of_lt_mul (Nat.mul_comm _ _ ▸ hy),
    x / glyphWidth, Nat.div_lt_of_lt_mul (Nat.mul_comm _ _ ▸ hx), rfl, rfl⟩

/-- A put draws its own cell. -/
theorem backendPutCell_painted (hg : d.toGeometry.Drawable) (hb : d.backend = .fb) {row col : ℕ}
    (hrow : row < d.termRows) (hcol : col < d.termCols) (c color : UInt8) (h : d.Painted) :
    (backendPutCell d row col c color).Painted := by
  have hstore := fbStore_samePicture d row col c color
  have hput : backendPutCell d row col c color =
      fbDrawCell (fbStoreColor (fbStoreCell d row col c) row col color) row col c color := by
    rw [backendPutCell, if_neg (by omega), hb]
  rw [hput]
  have hsame := fbDrawCell_sameCells (fbStoreColor (fbStoreCell d row col c) row col color) row col
    c color
  intro x y hx hy
  rw [hsame.geometry] at hx hy
  have hcell := fbDrawCell_pixelAt (g := d.toGeometry) hg hstore.geometry hrow hcol c color
    (x := x) (y := y) (hx.trans_le hg.cols)
  rw [hsame.store, CellStore.picture]
  by_cases hpos : y / glyphHeight = row ∧ x / glyphWidth = col
  · rw [hcell.set hpos]
    simp [fbStoreColor, fbStoreCell, Display.note, setCell, hpos]
  · rw [hcell.kept hpos, hstore.pixelAt, h x y hx hy]
    simp [fbStoreColor, fbStoreCell, Display.note, setCell, hpos, CellStore.picture]

/-! ## What the backends keep -/

/-- A framebuffer console can have this geometry. -/
structure Geometry.FbConsole (g : Geometry) : Prop extends Geometry.Framed g where
  backend : g.backend = .fb
  selectable : g.Selectable

/-- A display of geometry `g` that has written only pixels of its cells, and none if there is no
framebuffer. -/
structure Confined (g : Geometry) (d : Display) : Prop where
  geometry : d.toGeometry = g
  area : ∀ i, d.Plotted i → g.fbMemory ≠ 0 ∧ g.Area i

theorem Geometry.Tile.area {row col i : ℕ} (h : g.Tile row col i) (hrow : row < g.termRows)
    (hcol : col < g.termCols) : g.Area i :=
  (g.area_iff i).mpr ⟨row, hrow, col, hcol, h⟩

theorem Confined.samePicture {e : Display} (h : Confined g d) (he : SamePicture d e) :
    Confined g e :=
  ⟨he.geometry.trans h.geometry, fun i hi => h.area i ((he.plotted i).mp hi)⟩

theorem Confined.put (h : Confined g d) (hg : g.FbConsole) {row col : ℕ} (hrow : row < g.termRows)
    (hcol : col < g.termCols) (c color : UInt8) :
    Confined g (backendPutCell d row col c color) := by
  refine ⟨(backendPutCell_geometry _ _ _ _ _).trans h.geometry, fun i hi => ?_⟩
  rw [backendPutCell_plotted hg.toFramed hg.backend h.geometry hrow hcol] at hi
  rcases hi with hi | ⟨hmem, htile⟩
  · exact h.area i hi
  · exact ⟨hmem, htile.area hrow hcol⟩

theorem Confined.clearAll (h : Confined g d) (hg : g.FbConsole) (color : UInt8) :
    Confined g (backendClearAll d color) := by
  refine ⟨(backendClearAll_spec d color).1.trans h.geometry, fun i hi => ?_⟩
  rw [backendClearAll_plotted hg.toFramed hg.backend h.geometry] at hi
  exact hi.elim (h.area i) id

theorem Confined.scrollUp (h : Confined g d) (hg : g.FbConsole) (color : UInt8) :
    Confined g (backendScrollUp d color) := by
  have hrows : 1 ≤ d.termRows := by
    rw [h.geometry]
    exact hg.selectable.rows_pos
  refine ⟨(backendScrollUp_spec d color hrows).1.trans h.geometry, fun i hi => ?_⟩
  rw [backendScrollUp_plotted hg.toFramed hg.backend h.geometry] at hi
  exact hi.elim (h.area i) id

/-- A framebuffer console whose pixels, if there is a framebuffer, show the cells. Both sides are
the same console, as in `Bounded`. -/
structure Pictured (g : Geometry) (d e : Display) : Prop where
  same : d = e
  confined : Confined g d
  painted : g.fbMemory ≠ 0 → d.Painted

theorem backendClearAll_pictured (hg : g.FbConsole) (hpitch : g.fbWidth ≤ g.fbPitchPixels)
    (hd : Confined g d) (color : UInt8) :
    Pictured g (backendClearAll d color) (backendClearAll d color) := by
  refine ⟨rfl, hd.clearAll hg color, fun hmem => ?_⟩
  obtain rfl := hd.geometry
  have hcells := clearedCells_samePicture d color
  rw [backendClearAll_fb hg.backend]
  refine fbRedrawFull_painted ?_
  rw [hcells.geometry]
  exact ⟨hg.toFramed, hmem, hpitch⟩

theorem backendScrollUp_pictured (hg : g.FbConsole) (hpitch : g.fbWidth ≤ g.fbPitchPixels)
    (hd : Confined g d) (color : UInt8) :
    Pictured g (backendScrollUp d color) (backendScrollUp d color) := by
  refine ⟨rfl, hd.scrollUp hg color, fun hmem => ?_⟩
  obtain rfl := hd.geometry
  have hcells := scrolledCells_samePicture d color
  rw [backendScrollUp_fb hg.backend]
  refine fbRedrawFull_painted ?_
  rw [hcells.geometry]
  exact ⟨hg.toFramed, hmem, hpitch⟩

theorem pictured_drawRel (hg : g.FbConsole) (hpitch : g.fbWidth ≤ g.fbPitchPixels) :
    DrawRel (Pictured g) where
  rows := fun h => by rw [h.same]
  cols := fun h => by rw [h.same]
  rows_pos := fun h => by
    rw [h.confined.geometry]
    exact hg.selectable.rows_pos
  cols_pos := fun h => by
    rw [h.confined.geometry]
    exact hg.selectable.cols_pos
  notePut := by
    rintro d e ⟨rfl, hd, hpainted⟩ byte
    exact ⟨rfl, hd.samePicture (note_samePicture d nofun), hpainted⟩
  noteEmit := by
    rintro d e ⟨rfl, hd, hpainted⟩ cp
    exact ⟨rfl, hd.samePicture (note_samePicture d nofun), hpainted⟩
  put := by
    rintro d e ⟨rfl, hd, hpainted⟩ row col hrow hcol byte - color
    obtain rfl := hd.geometry
    refine ⟨rfl, hd.put hg hrow hcol byte color, fun hmem => ?_⟩
    exact backendPutCell_painted ⟨hg.toFramed, hmem, hpitch⟩ hg.backend hrow hcol byte color
      (hpainted hmem)
  clearAll := by
    rintro d e ⟨rfl, hd, -⟩ color
    exact backendClearAll_pictured hg hpitch hd color
  scrollUp := by
    rintro d e ⟨rfl, hd, -⟩ color
    exact backendScrollUp_pictured hg hpitch hd color

/-! ## Every run -/

/-- On a framebuffer that is not too large to be mapped, no index wraps. -/
theorem VideoFramebufferInfo.framed {fb : VideoFramebufferInfo}
    (hsize : fb.pitch.toNat * fb.height.toNat ≤ 256 * 1024 * 1024) :
    fb.geometry.Framed := by
  have hcols : min (fb.width.toNat / glyphWidth) fbMaxCols * glyphWidth ≤ fb.width.toNat :=
    (Nat.mul_le_mul_right _ (Nat.min_le_left _ _)).trans (Nat.div_mul_le_self _ _)
  have hrows : min (fb.height.toNat / glyphHeight) fbMaxRows * glyphHeight ≤ fb.height.toNat :=
    (Nat.mul_le_mul_right _ (Nat.min_le_left _ _)).trans (Nat.div_mul_le_self _ _)
  have hmax : min (fb.width.toNat / glyphWidth) fbMaxCols * glyphWidth ≤ fbMaxCols * glyphWidth :=
    Nat.mul_le_mul_right _ (Nat.min_le_right _ _)
  refine ⟨hcols, hrows, fb.width.toNat_lt, fb.height.toNat_lt, fun {x y} hx hy => ?_⟩
  have hx' : x < fbMaxCols * glyphWidth := hx.trans_le hmax
  have hy' : y ≤ fb.height.toNat := Nat.le_of_lt (Nat.lt_of_lt_of_le hy hrows)
  have hline : y * fb.geometry.fbPitchPixels ≤ 256 * 1024 * 1024 :=
    calc y * (fb.pitch.toNat / 4) ≤ fb.height.toNat * fb.pitch.toNat :=
          Nat.mul_le_mul hy' (Nat.div_le_self _ _)
      _ = fb.pitch.toNat * fb.height.toNat := Nat.mul_comm _ _
      _ ≤ 256 * 1024 * 1024 := hsize
  simp only [fbMaxCols, glyphWidth] at hx' hline
  omega

theorem VideoFramebufferInfo.Accepted.fbConsole {fb : VideoFramebufferInfo} (h : fb.Accepted)
    (hsize : fb.pitch.toNat * fb.height.toNat ≤ 256 * 1024 * 1024) : fb.geometry.FbConsole :=
  ⟨fb.framed hsize, rfl, h.selectable⟩

/-- What can be seen on a framebuffer is what is in the cells of its console. The first field is
about the pixels of cells and holds only if there is memory to draw to; the other two say that
nothing else was ever written. -/
structure VideoFramebufferInfo.Shows (fb : VideoFramebufferInfo) (c : Console) : Prop where
  /-- a pixel of a cell shows the font's pixel of the character, in the cell's colours -/
  pixel : fb.physAddr ≠ 0 → ∀ row col gx gy, row < c.termRows → col < c.termCols →
    gx < glyphWidth → gy < glyphHeight →
    c.pixelAt (col * glyphWidth + gx) (row * glyphHeight + gy) =
      glyphPixel (c.fbCells row col) (c.fbCellColors row col) gx gy
  /-- every word that was written is a pixel of a cell -/
  written : ∀ i, c.Plotted i → ∃ x < c.termCols * glyphWidth, ∃ y < c.termRows * glyphHeight,
    i = y * c.fbPitchPixels + x
  /-- no other pixel of the framebuffer was written -/
  outside : ∀ x y, x < fb.width.toNat → c.Plotted (y * c.fbPitchPixels + x) →
    x < c.termCols * glyphWidth ∧ y < c.termRows * glyphHeight

theorem Pictured.shows {fb : VideoFramebufferInfo} {c : Console}
    (h : Pictured fb.geometry c.toDisplay c.toDisplay) (hg : fb.geometry.Framed)
    (hpitch : fb.width.toNat ≤ fb.pitch.toNat / 4) : fb.Shows c := by
  obtain ⟨-, ⟨hgeo, harea⟩, hpainted⟩ := h
  refine ⟨?_, ?_, ?_⟩
  · intro haddr row col gx gy hrow hcol hgx hgy
    have hmem : fb.geometry.fbMemory ≠ 0 := fun h0 => haddr (UInt64.toNat_inj.mp h0)
    rw [hpainted hmem _ _ (tile_lt hcol hgx) (tile_lt hrow hgy), CellStore.picture,
      (tile_iff.mp ⟨gx, hgx, rfl⟩).1, (tile_iff.mp ⟨gy, hgy, rfl⟩).1,
      Nat.mul_add_mod_of_lt hgx, Nat.mul_add_mod_of_lt hgy]
  · rw [hgeo]
    exact fun i hi => (harea i hi).2
  · intro x y hx hplotted
    rw [hgeo] at hplotted ⊢
    obtain ⟨-, x', hx', y', hy', hindex⟩ := harea _ hplotted
    have hlt : x < fb.geometry.fbPitchPixels := hx.trans_le hpitch
    have hlt' : x' < fb.geometry.fbPitchPixels := (hx'.trans_le hg.cols).trans_le hpitch
    obtain ⟨rfl, rfl⟩ := (pixelIndex_inj hlt hlt').mp hindex
    exact ⟨hx', hy'⟩

theorem consoleEnableFramebuffer_pictured {c : Console} {fb : VideoFramebufferInfo}
    (henable : (consoleEnableFramebuffer c fb).2 = true) (hg : fb.geometry.FbConsole)
    (hpitch : fb.width.toNat ≤ fb.pitch.toNat / 4) (hfresh : ∀ i, ¬c.Plotted i) :
    Sim (Pictured fb.geometry) (consoleEnableFramebuffer c fb).1
      (consoleEnableFramebuffer c fb).1 := by
  rw [(consoleEnableFramebuffer_true henable).2]
  refine consoleClear_sim_of_cleared (pictured_drawRel hg hpitch)
    (backendClearAll_pictured hg hpitch ⟨rfl, ?_⟩ 0x0F)
  exact fun i hi => absurd hi (hfresh i)

/-- **The picture is a function of the cells**: after a framebuffer was accepted, and
after any further calls, the pixels of the cells show the cells and no other pixel was
written. A framebuffer at address 0 is none: `fb_plot` writes nothing. -/
theorem framebuffer_shows_cells (c : Console) {fb : VideoFramebufferInfo}
    (henable : (consoleEnableFramebuffer { c with trace := [] } fb).2 = true)
    (hwidth : fb.width.toNat ≤ fb.pitch.toNat / 4)
    (hsize : fb.pitch.toNat * fb.height.toNat ≤ 256 * 1024 * 1024)
    (calls : List ConsoleCall) :
    fb.Shows (calls.foldl consoleCall (consoleEnableFramebuffer { c with trace := [] } fb).1) := by
  have hg := (consoleEnableFramebuffer_true henable).1.fbConsole hsize
  have hstart := consoleEnableFramebuffer_pictured henable hg hwidth fun i => List.not_mem_nil
  exact (consoleCalls_sim (pictured_drawRel hg hwidth) calls hstart).display.shows hg.toFramed hwidth

theorem framebuffer_shows_cells_fb640x400 :
    fb640x400.Shows (redLetter.foldl consoleCall
      (consoleEnableFramebuffer { idleConsole vgaText with trace := [] } fb640x400).1) :=
  framebuffer_shows_cells (idleConsole vgaText) (by rfl) (by decide) (by decide) redLetter

/-- A framebuffer of one cell that lies at address 0. -/
def fbNull : VideoFramebufferInfo :=
  { present := true, mapped := true, physAddr := 0, sizeBytes := 512
    width := 8, height := 16, pitch := 32, bpp := 32, type := 1 }

/-- A framebuffer at address 0 keeps what it showed. -/
theorem fbNull_not_drawn :
    let c := { idleConsole vgaText with pixels := fun _ => 1 }
    let s := (consoleEnableFramebuffer c fbNull).1
    ((consoleEnableFramebuffer c fbNull).2 = true ∧
      fbNull.width.toNat ≤ fbNull.pitch.toNat / 4 ∧
      fbNull.pitch.toNat * fbNull.height.toNat ≤ 256 * 1024 * 1024) ∧
      (0 < s.termRows ∧ 0 < s.termCols) ∧
      s.pixelAt 0 0 ≠ glyphPixel (s.fbCells 0 0) (s.fbCellColors 0 0) 0 0 := by
  decide +kernel

end WaluOs
