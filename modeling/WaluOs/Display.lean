import Mathlib.Algebra.Group.Nat.Defs
import Mathlib.Logic.Function.Basic
import WaluOs.Font
import WaluOs.Loops
import WaluOs.Scrollback

/-!
# The console's two displays

The console draws through three functions, `backend_put_cell`,
`backend_clear_all` and `backend_scroll_up`. Each of them exists twice: on VGA
text memory, a flat array of 16-bit words, and on a framebuffer, where two byte
arrays shadow the cells and every change is redrawn with the font.

`size_t` values are natural numbers; `uint32_t` arithmetic wraps explicitly.
Arrays are functions of unbounded indices, so that an access out of bounds is
not a mistake of the model but an entry of the trace, where proofs look for it.
-/

namespace WaluOs

open Loops

/-- `VGA_WIDTH` -/
abbrev vgaWidth : ℕ := 80

/-- `VGA_HEIGHT` -/
abbrev vgaHeight : ℕ := 25

/-- `FB_MAX_COLS` -/
abbrev fbMaxCols : ℕ := 160

/-- `FB_MAX_ROWS` -/
abbrev fbMaxRows : ℕ := 100

/-- `GLYPH_WIDTH` -/
abbrev glyphWidth : ℕ := 8

/-- `GLYPH_HEIGHT` -/
abbrev glyphHeight : ℕ := 16

/-- `enum console_backend` -/
inductive ConsoleBackend : Type where
  /-- `CONSOLE_BACKEND_VGA` -/
  | vga : ConsoleBackend
  /-- `CONSOLE_BACKEND_FB` -/
  | fb : ConsoleBackend
  deriving DecidableEq, Repr

/-- What the trace of a console records: each access to one of its arrays or to video memory, and
the calls that statements are about. An index is recorded as it was computed, whether or not it is
inside. -/
inductive ConsoleEvent : Type where
  /-- `VGA_MEMORY[i]` was read or written. -/
  | vgaCell (i : ℕ) : ConsoleEvent
  /-- `fb_cells[row][col]` was read or written. -/
  | fbCell (row col : ℕ) : ConsoleEvent
  /-- `fb_cell_colors[row][col]` was read or written. -/
  | fbCellColor (row col : ℕ) : ConsoleEvent
  /-- `fb_memory[i]` was written. -/
  | pixel (i : ℕ) : ConsoleEvent
  /-- `backend_put_cell` returned at its bounds check. -/
  | discarded (row col : ℕ) : ConsoleEvent
  /-- `raw_put_visible` was called. -/
  | rawPutVisible (c : UInt8) : ConsoleEvent
  /-- `console_emit_codepoint` was called. -/
  | emitCodepoint (codepoint : UInt32) : ConsoleEvent
  deriving DecidableEq, Repr

/-- Which display is in use, and its size. It changes only when a display is selected. -/
structure Geometry : Type where
  /-- `g_backend` -/
  backend : ConsoleBackend
  /-- `term_cols` -/
  termCols : ℕ
  /-- `term_rows` -/
  termRows : ℕ
  /-- `fb_memory`, an address -/
  fbMemory : ℕ
  /-- `fb_width` -/
  fbWidth : ℕ
  /-- `fb_height` -/
  fbHeight : ℕ
  /-- `fb_pitch_pixels` -/
  fbPitchPixels : ℕ

/-- The arrays that hold characters and colours. VGA memory is both an array and the display; a
framebuffer console has arrays of its own beside the pixels. -/
structure CellStore : Type where
  /-- `VGA_MEMORY` -/
  vgaMemory : ℕ → UInt16
  /-- `fb_cells` -/
  fbCells : ℕ → ℕ → UInt8
  /-- `fb_cell_colors` -/
  fbCellColors : ℕ → ℕ → UInt8

/-- The display side of the console: the geometry, the cells, video memory, and what was accessed.
-/
structure Display : Type extends Geometry, CellStore where
  /-- the 32-bit words of video memory, by address -/
  pixels : ℕ → UInt32
  /-- trace: what was accessed and called so far, oldest first -/
  trace : List ConsoleEvent

/-- Append an event to the trace. -/
def Display.note (d : Display) (e : ConsoleEvent) : Display := { d with trace := d.trace ++ [e] }

/-- `vga_palette_rgb` -/
def vgaPaletteRgb (index : UInt8) : UInt32 :=
  [0x000000, 0x0000AA, 0x00AA00, 0x00AAAA, 0xAA0000, 0xAA00AA, 0xAA5500, 0xAAAAAA,
   0x555555, 0x5555FF, 0x55FF55, 0x55FFFF, 0xFF5555, 0xFF55FF, 0xFFFF55, 0xFFFFFF].getD
    index.toNat 0

/-- `vga_entry`; `char` is signed, so its conversion to `uint16_t` extends the sign. A character
from 128 on thus sets all bits of the colour. -/
def vgaEntry (c color : UInt8) : UInt16 :=
  c.toInt8.toInt16.toUInt16 ||| (color.toUInt16 <<< 8)

/-! ## Pixels -/

/-- `fb_plot` -/
def fbPlot (d : Display) (x y : ℕ) (rgb : UInt32) : Display :=
  if d.fbMemory = 0 ∨ d.fbWidth ≤ x ∨ d.fbHeight ≤ y then
    d
  else
    let i := (y * d.fbPitchPixels + x) % 2 ^ 32
    { d.note (.pixel i) with pixels := Function.update d.pixels (d.fbMemory + 4 * i) rgb }

/-- `fb_draw_cell` -/
def fbDrawCell (d : Display) (row col : ℕ) (c color : UInt8) : Display :=
  if d.termRows ≤ row ∨ d.termCols ≤ col then
    d
  else
    let x0 := col * glyphWidth % 2 ^ 32
    let y0 := row * glyphHeight % 2 ^ 32
    if d.fbWidth < (x0 + glyphWidth) % 2 ^ 32 ∨ d.fbHeight < (y0 + glyphHeight) % 2 ^ 32 then
      d
    else
      let fg := vgaPaletteRgb (color &&& 0x0F)
      let bg := vgaPaletteRgb ((color >>> 4) &&& 0x0F)
      let glyphIndex := if 128 ≤ c then 0x3F else c
      forRange 0 glyphHeight (fun d gy =>
        let rowBits := font8x8Row glyphIndex (gy / 2)
        forRange 0 glyphWidth (fun d gx =>
          fbPlot d ((x0 + gx) % 2 ^ 32) ((y0 + gy) % 2 ^ 32)
            (if rowBits.toNat.testBit gx then fg else bg)) d) d

/-! ## Cells -/

/-- `VGA_MEMORY[i] = value` -/
def vgaStore (d : Display) (i : ℕ) (value : UInt16) : Display :=
  { d.note (.vgaCell i) with vgaMemory := Function.update d.vgaMemory i value }

/-- An array of rows with one element replaced. -/
def setCell (cells : ℕ → ℕ → UInt8) (row col : ℕ) (value : UInt8) : ℕ → ℕ → UInt8 :=
  fun r k => if r = row ∧ k = col then value else cells r k

/-- `fb_cells[row][col] = c` -/
def fbStoreCell (d : Display) (row col : ℕ) (c : UInt8) : Display :=
  { d.note (.fbCell row col) with fbCells := setCell d.fbCells row col c }

/-- `fb_cell_colors[row][col] = color` -/
def fbStoreColor (d : Display) (row col : ℕ) (color : UInt8) : Display :=
  { d.note (.fbCellColor row col) with fbCellColors := setCell d.fbCellColors row col color }

/-- `fb_redraw_full` -/
def fbRedrawFull (d : Display) : Display :=
  forRange 0 d.termRows (fun d y =>
    forRange 0 d.termCols (fun d x =>
      fbDrawCell ((d.note (.fbCell y x)).note (.fbCellColor y x)) y x
        (d.fbCells y x) (d.fbCellColors y x)) d) d

/-! ## The backends -/

/-- `backend_put_cell` -/
def backendPutCell (d : Display) (row col : ℕ) (c color : UInt8) : Display :=
  if d.termRows ≤ row ∨ d.termCols ≤ col then
    d.note (.discarded row col)
  else
    match d.backend with
    | .vga => vgaStore d (row * d.termCols + col) (vgaEntry c color)
    | .fb => fbDrawCell (fbStoreColor (fbStoreCell d row col c) row col color) row col c color

/-- `backend_clear_all` -/
def backendClearAll (d : Display) (color : UInt8) : Display :=
  match d.backend with
  | .vga =>
    forRange 0 d.termRows (fun d y =>
      forRange 0 d.termCols (fun d x =>
        vgaStore d (y * d.termCols + x) (vgaEntry 0x20 color)) d) d
  | .fb =>
    fbRedrawFull (forRange 0 d.termRows (fun d y =>
      forRange 0 d.termCols (fun d x =>
        fbStoreColor (fbStoreCell d y x 0x20) y x color) d) d)

/-- `VGA_MEMORY[(y - 1) * term_cols + x] = VGA_MEMORY[y * term_cols + x]` -/
def vgaCopyCell (d : Display) (y x : ℕ) : Display :=
  vgaStore (d.note (.vgaCell (y * d.termCols + x))) ((y - 1) * d.termCols + x)
    (d.vgaMemory (y * d.termCols + x))

/-- `memcpy(fb_cells[y - 1], fb_cells[y], term_cols)` -/
def fbCopyCells (d : Display) (y : ℕ) : Display :=
  forRange 0 d.termCols (fun d x =>
    fbStoreCell (d.note (.fbCell y x)) (y - 1) x (d.fbCells y x)) d

/-- `memcpy(fb_cell_colors[y - 1], fb_cell_colors[y], term_cols)` -/
def fbCopyColors (d : Display) (y : ℕ) : Display :=
  forRange 0 d.termCols (fun d x =>
    fbStoreColor (d.note (.fbCellColor y x)) (y - 1) x (d.fbCellColors y x)) d

/-- `backend_scroll_up` -/
def backendScrollUp (d : Display) (color : UInt8) : Display :=
  match d.backend with
  | .vga =>
    let d := forRange 1 d.termRows (fun d y =>
      forRange 0 d.termCols (fun d x => vgaCopyCell d y x) d) d
    forRange 0 d.termCols (fun d x =>
      vgaStore d ((d.termRows - 1) * d.termCols + x) (vgaEntry 0x20 color)) d
  | .fb =>
    let d := forRange 1 d.termRows (fun d y => fbCopyColors (fbCopyCells d y) y) d
    let d := forRange 0 d.termCols (fun d x =>
      fbStoreColor (fbStoreCell d (d.termRows - 1) x 0x20) (d.termRows - 1) x color) d
    fbRedrawFull d

/-! ## Drawing pixels changes no cell

Everything below `fb_draw_cell` changes only the picture and the trace. -/

/-- `e` differs from `d` in the picture and the trace at most. Drawing a cell that is stored
already is of this kind. -/
structure SameCells (d e : Display) : Prop where
  geometry : e.toGeometry = d.toGeometry
  store : e.toCellStore = d.toCellStore

theorem SameCells.refl (d : Display) : SameCells d d := ⟨rfl, rfl⟩

theorem SameCells.trans {d e f : Display} (h : SameCells d e) (h' : SameCells e f) :
    SameCells d f :=
  ⟨h'.geometry.trans h.geometry, h'.store.trans h.store⟩

theorem Display.note_sameCells (d : Display) (e : ConsoleEvent) : SameCells d (d.note e) :=
  ⟨rfl, rfl⟩

theorem fbPlot_sameCells (d : Display) (x y : ℕ) (rgb : UInt32) :
    SameCells d (fbPlot d x y rgb) := by
  rw [fbPlot]
  split <;> exact ⟨rfl, rfl⟩

theorem fbDrawCell_sameCells (d : Display) (row col : ℕ) (c color : UInt8) :
    SameCells d (fbDrawCell d row col c color) := by
  rw [fbDrawCell]
  split
  · exact SameCells.refl d
  · dsimp only
    split
    · exact SameCells.refl d
    · refine forRange_invariant (SameCells.refl d) fun gy t _ _ ht => ?_
      refine forRange_invariant ht fun gx u _ _ hu => ?_
      exact hu.trans (fbPlot_sameCells u _ _ _)

theorem fbRedrawFull_sameCells (d : Display) : SameCells d (fbRedrawFull d) := by
  refine forRange_invariant (SameCells.refl d) fun y t _ _ ht => ?_
  refine forRange_invariant ht fun x u _ _ hu => ?_
  have hnotes : SameCells u ((u.note (.fbCell y x)).note (.fbCellColor y x)) :=
    (u.note_sameCells _).trans (Display.note_sameCells _ _)
  exact hu.trans (hnotes.trans (fbDrawCell_sameCells _ y x _ _))

/-! ## What a display shows -/

/-- The cell a display shows at a position, whichever arrays it is kept in: the
character in the low byte, the colour in the high byte. -/
def Display.cell (d : Display) (row col : ℕ) : UInt16 :=
  match d.backend with
  | .vga => d.vgaMemory (row * d.termCols + col)
  | .fb => (d.fbCells row col).toUInt16 ||| ((d.fbCellColors row col).toUInt16 <<< 8)

theorem SameCells.cell {d e : Display} (h : SameCells d e) : e.cell = d.cell := by
  funext row col
  rw [Display.cell, Display.cell, h.geometry, h.store]

/-- For ASCII the conversion of `vga_entry` is the plain one. -/
theorem vgaEntry_ascii {c : UInt8} (h : c < 0x80) (color : UInt8) :
    vgaEntry c color = c.toUInt16 ||| (color.toUInt16 <<< 8) := by
  have hmsb : c.toBitVec.msb = false := by
    have hlt := UInt8.lt_iff_toNat_lt.mp h
    rw [BitVec.msb_eq_false_iff_two_mul_lt]
    simp at hlt ⊢
    omega
  have hext : c.toInt8.toInt16.toUInt16 = c.toUInt16 := by
    apply UInt16.toBitVec_inj.mp
    exact BitVec.signExtend_eq_setWidth_of_msb_false hmsb
  rw [vgaEntry, hext]

-- The sign extension that other characters get.
example : vgaEntry 0x80 0x0F = 0xFF80 := by decide

/-- `store` puts `val` at one position and changes nothing else that shows. Both displays do this,
in different arrays. -/
structure Stores (g : Geometry) (store : Display → Display) (row col : ℕ) (val : UInt16)
    (d : Display) : Prop where
  geometry : (store d).toGeometry = g
  cell : ∀ r k, k < g.termCols →
    (store d).cell r k = if r = row ∧ k = col then val else d.cell r k

theorem vgaStore_stores {d : Display} (hb : d.backend = .vga) (row : ℕ) {col : ℕ}
    (hcol : col < d.termCols) (val : UInt16) :
    Stores d.toGeometry (fun d => vgaStore d (row * d.termCols + col) val) row col val d := by
  refine ⟨rfl, fun r k hk => ?_⟩
  simp only [Display.cell, vgaStore, Display.note, hb, Function.update_apply]
  simp only [Scrollback.position_eq_iff hk hcol]

theorem fbStore_stores {d : Display} (hb : d.backend = .fb) (row col : ℕ) (c color : UInt8) :
    Stores d.toGeometry (fun d => fbStoreColor (fbStoreCell d row col c) row col color) row col
      (c.toUInt16 ||| (color.toUInt16 <<< 8)) d := by
  refine ⟨rfl, fun r k _ => ?_⟩
  simp only [Display.cell, fbStoreColor, fbStoreCell, Display.note, hb, setCell]
  split <;> rfl

/-! ## Loops over cells -/

/-- A loop that stores along a row; what it stores may depend on the other rows. -/
theorem fillRow_cell (store : Display → ℕ → Display) (row : ℕ) (val : ℕ → UInt16) {g : Geometry}
    {d : Display} (hd : d.toGeometry = g)
    (hstore : ∀ t x, t.toGeometry = g → x < g.termCols →
      (∀ r k, r ≠ row → k < g.termCols → t.cell r k = d.cell r k) →
      Stores g (fun t => store t x) row x (val x) t) :
    (forRange 0 g.termCols store d).toGeometry = g ∧
      ∀ r k, k < g.termCols →
        (forRange 0 g.termCols store d).cell r k = if r = row then val k else d.cell r k := by
  have h : (forRange 0 g.termCols store d).toGeometry = g ∧ ∀ r k, k < g.termCols →
      (forRange 0 g.termCols store d).cell r k =
        if r = row ∧ k < g.termCols then val k else d.cell r k := by
    refine forRange_rule
      (fun x (t : Display) => t.toGeometry = g ∧ ∀ r k, k < g.termCols →
        t.cell r k = if r = row ∧ k < x then val k else d.cell r k)
      (Nat.zero_le g.termCols) ⟨hd, fun r k _ => by simp⟩ ?_
    rintro x t - hx ⟨hg, hcell⟩
    have hother : ∀ r k, r ≠ row → k < g.termCols → t.cell r k = d.cell r k := by
      intro r k hr hk
      rw [hcell r k hk, if_neg (fun h => hr h.1)]
    obtain ⟨hg', hcell'⟩ := hstore t x hg hx hother
    refine ⟨hg', fun r k hk => ?_⟩
    rw [hcell' r k hk, hcell r k hk]
    grind
  refine ⟨h.1, fun r k hk => ?_⟩
  rw [h.2 r k hk]
  simp only [hk, and_true]

/-- Nested loops that put the same value everywhere. -/
theorem fillAll_cell (store : Display → ℕ → ℕ → Display) {g : Geometry} {val : UInt16}
    (hstore : ∀ d y x, d.toGeometry = g → x < g.termCols →
      Stores g (fun d => store d y x) y x val d) {d : Display} (hd : d.toGeometry = g) :
    let filled := forRange 0 g.termRows
      (fun d y => forRange 0 d.termCols (fun d x => store d y x) d) d
    filled.toGeometry = g ∧ ∀ r k, r < g.termRows → k < g.termCols → filled.cell r k = val := by
  refine forRange_rule
    (fun y (t : Display) => t.toGeometry = g ∧ ∀ r k, r < y → k < g.termCols → t.cell r k = val)
    (Nat.zero_le g.termRows) ⟨hd, fun r k hr => absurd hr (Nat.not_lt_zero r)⟩ ?_
  rintro y t - hy ⟨hg, hcell⟩
  have hcols : t.termCols = g.termCols := congrArg Geometry.termCols hg
  rw [hcols]
  obtain ⟨hg', hcell'⟩ := fillRow_cell (fun t x => store t y x) y (fun _ => val) hg
    (fun u x hu hx _ => hstore u y x hu hx)
  refine ⟨hg', fun r k hr hk => ?_⟩
  rw [hcell' r k hk]
  split
  · rfl
  · exact hcell r k (by omega) hk

/-- `copy` puts row `y` where row `y - 1` was. A scroll is these, from the first row to the last.
-/
structure CopiesRow (g : Geometry) (copy : Display → Display) (y : ℕ) (d : Display) : Prop where
  geometry : (copy d).toGeometry = g
  cell : ∀ r k, k < g.termCols →
    (copy d).cell r k = if r = y - 1 then d.cell y k else d.cell r k

/-- Row by row from the top, every row moves up by one. The last row keeps what
it showed. -/
theorem copyRows_cell {g : Geometry} {copy : Display → ℕ → Display}
    (hcopy : ∀ d y, d.toGeometry = g → 1 ≤ y → CopiesRow g (fun d => copy d y) y d)
    {d : Display} (hd : d.toGeometry = g) (hrows : 1 ≤ g.termRows) :
    (forRange 1 g.termRows copy d).toGeometry = g ∧
      ∀ r k, k < g.termCols →
        (forRange 1 g.termRows copy d).cell r k =
          if r + 1 < g.termRows then d.cell (r + 1) k else d.cell r k := by
  refine forRange_rule
    (fun y (t : Display) => t.toGeometry = g ∧ ∀ r k, k < g.termCols →
      t.cell r k = if r + 1 < y then d.cell (r + 1) k else d.cell r k)
    hrows ⟨hd, fun r k _ => by rw [if_neg (by omega)]⟩ ?_
  rintro y t hy - ⟨hg, hcell⟩
  obtain ⟨hg', hcell'⟩ := hcopy t y hg hy
  refine ⟨hg', fun r k hk => ?_⟩
  -- Row `y` has not been overwritten yet when it is copied.
  rw [hcell' r k hk, hcell r k hk, hcell y k hk, if_neg (show ¬ y + 1 < y by omega)]
  grind

/-! ## What the backends do -/

theorem backendPutCell_geometry (d : Display) (row col : ℕ) (c color : UInt8) :
    (backendPutCell d row col c color).toGeometry = d.toGeometry := by
  rw [backendPutCell]
  split
  · rfl
  · cases d.backend with
    | vga => rfl
    | fb => exact (fbDrawCell_sameCells _ row col c color).geometry

/-- Within the bounds, and for ASCII, a put changes exactly its own cell. -/
theorem backendPutCell_cell {d : Display} {row col : ℕ} (hrow : row < d.termRows)
    (hcol : col < d.termCols) {c : UInt8} (hc : c < 0x80) (color : UInt8) {r k : ℕ}
    (hk : k < d.termCols) :
    (backendPutCell d row col c color).cell r k =
      if r = row ∧ k = col then vgaEntry c color else d.cell r k := by
  rw [backendPutCell, if_neg (by omega)]
  cases hb : d.backend with
  | vga => exact (vgaStore_stores hb row hcol _).cell r k hk
  | fb =>
    dsimp only
    rw [(fbDrawCell_sameCells _ row col c color).cell, vgaEntry_ascii hc]
    exact (fbStore_stores hb row col c color).cell r k hk

/-- Both backends clear by storing a blank at every position. -/
theorem backendClearAll_spec (d : Display) (color : UInt8) :
    (backendClearAll d color).toGeometry = d.toGeometry ∧
      ∀ r k, r < d.termRows → k < d.termCols →
        (backendClearAll d color).cell r k = vgaEntry 0x20 color := by
  rw [backendClearAll]
  cases hb : d.backend with
  | vga =>
    refine fillAll_cell (fun d y x => vgaStore d (y * d.termCols + x) _) ?_ rfl
    intro t y x ht hx
    have hbt : t.backend = .vga := (congrArg Geometry.backend ht).trans hb
    rw [← ht] at hx ⊢
    exact vgaStore_stores hbt y hx _
  | fb =>
    have hsame := fbRedrawFull_sameCells
    have hstore : ∀ t y x, t.toGeometry = d.toGeometry → x < d.termCols →
        Stores d.toGeometry (fun t => fbStoreColor (fbStoreCell t y x 0x20) y x color) y x
          (vgaEntry 0x20 color) t := by
      intro t y x ht _
      have hbt : t.backend = .fb := (congrArg Geometry.backend ht).trans hb
      rw [← ht, vgaEntry_ascii (by decide)]
      exact fbStore_stores hbt y x 0x20 color
    obtain ⟨hg, hcell⟩ := fillAll_cell _ hstore (rfl : d.toGeometry = _)
    refine ⟨(hsame _).geometry.trans hg, fun r k hr hk => ?_⟩
    rw [(hsame _).cell]
    exact hcell r k hr hk

/-- Copying a row of the flat array. -/
theorem vgaCopyRow_copies {d : Display} (hb : d.backend = .vga) {y : ℕ} (hy : 1 ≤ y) :
    CopiesRow d.toGeometry (fun d => forRange 0 d.termCols (fun d x => vgaCopyCell d y x) d) y
      d := by
  have h := fillRow_cell (fun t x => vgaCopyCell t y x) (y - 1) (fun x => d.cell y x)
    (rfl : d.toGeometry = _) ?_
  · exact ⟨h.1, h.2⟩
  · intro t x ht hx hother
    have hbt : t.backend = .vga := (congrArg Geometry.backend ht).trans hb
    -- The source row lies below the row that is written.
    have hval : t.vgaMemory (y * t.termCols + x) = d.cell y x := by
      rw [← hother y x (by omega) hx, Display.cell, hbt]
    rw [← hval, ← ht]
    rw [← ht] at hx
    have hnoted : SameCells t (t.note (.vgaCell (y * t.termCols + x))) := t.note_sameCells _
    have hs := vgaStore_stores (d := t.note (.vgaCell (y * t.termCols + x))) hbt (y - 1) hx
      (t.vgaMemory (y * t.termCols + x))
    exact ⟨hs.geometry, fun r k hk => by rw [← hnoted.cell]; exact hs.cell r k hk⟩

/-- `memcpy` from one row of a byte array to the row above it. -/
theorem setCell_copy (cells : ℕ → ℕ → UInt8) (y n : ℕ) :
    forRange 0 n (fun f x => setCell f (y - 1) x (f y x)) cells =
      fun r k => if r = y - 1 ∧ k < n then cells y k else cells r k := by
  refine forRange_rule
    (fun x f => f = fun r k => if r = y - 1 ∧ k < x then cells y k else cells r k)
    (Nat.zero_le n) (by simp) ?_
  rintro x f - - rfl
  funext r k
  rw [setCell]
  grind

theorem fbCopyCells_spec (d : Display) (y : ℕ) :
    ((fbCopyCells d y).toGeometry = d.toGeometry ∧
      (fbCopyCells d y).fbCellColors = d.fbCellColors) ∧
      (fbCopyCells d y).fbCells =
        fun r k => if r = y - 1 ∧ k < d.termCols then d.fbCells y k else d.fbCells r k := by
  constructor
  · exact forRange_rule
      (fun _ (t : Display) => t.toGeometry = d.toGeometry ∧ t.fbCellColors = d.fbCellColors)
      (Nat.zero_le _) ⟨rfl, rfl⟩ fun x t _ _ ht => ht
  · rw [← setCell_copy d.fbCells y d.termCols]
    exact forRange_map (fun t : Display => t.fbCells) (fun t x => rfl) d

theorem fbCopyColors_spec (d : Display) (y : ℕ) :
    ((fbCopyColors d y).toGeometry = d.toGeometry ∧
      (fbCopyColors d y).fbCells = d.fbCells) ∧
      (fbCopyColors d y).fbCellColors =
        fun r k => if r = y - 1 ∧ k < d.termCols then d.fbCellColors y k
          else d.fbCellColors r k := by
  constructor
  · exact forRange_rule
      (fun _ (t : Display) => t.toGeometry = d.toGeometry ∧ t.fbCells = d.fbCells)
      (Nat.zero_le _) ⟨rfl, rfl⟩ fun x t _ _ ht => ht
  · rw [← setCell_copy d.fbCellColors y d.termCols]
    exact forRange_map (fun t : Display => t.fbCellColors) (fun t x => rfl) d

/-- The two byte arrays of the framebuffer are copied one after the other. -/
theorem fbCopyRow_copies {d : Display} (hb : d.backend = .fb) (y : ℕ) :
    CopiesRow d.toGeometry (fun d => fbCopyColors (fbCopyCells d y) y) y d := by
  obtain ⟨⟨hg, hcolors⟩, hcells⟩ := fbCopyCells_spec d y
  obtain ⟨⟨hg', hcells'⟩, hcolors'⟩ := fbCopyColors_spec (fbCopyCells d y) y
  have hb' : (fbCopyColors (fbCopyCells d y) y).backend = .fb := by rw [hg', hg, hb]
  refine ⟨hg'.trans hg, fun r k hk => ?_⟩
  simp only [Display.cell, hb, hb', hcells', hcolors', hcells, hcolors, hg]
  split <;> simp_all

/-- Copying the rows up and then blanking the last one. -/
theorem scrollRows_cell {g : Geometry} {copy store : Display → ℕ → Display} {val : UInt16}
    (hcopy : ∀ t y, t.toGeometry = g → 1 ≤ y → CopiesRow g (fun t => copy t y) y t)
    (hstore : ∀ t x, t.toGeometry = g → x < g.termCols →
      Stores g (fun t => store t x) (g.termRows - 1) x val t)
    {d : Display} (hd : d.toGeometry = g) (hrows : 1 ≤ g.termRows) {up : Display}
    (hup : up = forRange 1 g.termRows copy d) :
    (forRange 0 up.termCols store up).toGeometry = g ∧
      ∀ r k, r < g.termRows → k < g.termCols →
        (forRange 0 up.termCols store up).cell r k =
          if r + 1 < g.termRows then d.cell (r + 1) k else val := by
  obtain ⟨hg, hcell⟩ := copyRows_cell hcopy hd hrows
  rw [← hup] at hg hcell
  rw [show up.termCols = g.termCols from congrArg Geometry.termCols hg]
  obtain ⟨hg', hcell'⟩ := fillRow_cell store (g.termRows - 1) (fun _ => val) hg
    fun t x ht hx _ => hstore t x ht hx
  refine ⟨hg', fun r k hr hk => ?_⟩
  rw [hcell' r k hk, hcell r k hk]
  grind

/-- Every row moves up by one and a blank row appears at the bottom. -/
theorem backendScrollUp_spec (d : Display) (color : UInt8) (hrows : 1 ≤ d.termRows) :
    (backendScrollUp d color).toGeometry = d.toGeometry ∧
      ∀ r k, r < d.termRows → k < d.termCols →
        (backendScrollUp d color).cell r k =
          if r + 1 < d.termRows then d.cell (r + 1) k else vgaEntry 0x20 color := by
  rw [backendScrollUp]
  cases hb : d.backend with
  | vga =>
    refine scrollRows_cell (fun t y ht hy => ?_) (fun t x ht hx => ?_) rfl hrows rfl
    · rw [← ht]
      exact vgaCopyRow_copies ((congrArg Geometry.backend ht).trans hb) hy
    · rw [← ht] at hx ⊢
      have hs := vgaStore_stores ((congrArg Geometry.backend ht).trans hb) (t.termRows - 1) hx
        (vgaEntry 0x20 color)
      exact ⟨hs.geometry, hs.cell⟩
  | fb =>
    have hcopy : ∀ t y, t.toGeometry = d.toGeometry → 1 ≤ y →
        CopiesRow d.toGeometry (fun t => fbCopyColors (fbCopyCells t y) y) y t := by
      intro t y ht _
      rw [← ht]
      exact fbCopyRow_copies ((congrArg Geometry.backend ht).trans hb) y
    have hstore : ∀ t x, t.toGeometry = d.toGeometry → x < d.termCols →
        Stores d.toGeometry
          (fun t => fbStoreColor (fbStoreCell t (t.termRows - 1) x 0x20) (t.termRows - 1) x color)
          (d.termRows - 1) x (vgaEntry 0x20 color) t := by
      intro t x ht _
      have hs := fbStore_stores ((congrArg Geometry.backend ht).trans hb) (t.termRows - 1) x 0x20
        color
      rw [← vgaEntry_ascii (by decide)] at hs
      rw [← ht]
      exact ⟨hs.geometry, hs.cell⟩
    obtain ⟨hg, hcell⟩ := scrollRows_cell hcopy hstore rfl hrows rfl
    have hsame := fbRedrawFull_sameCells
    refine ⟨(hsame _).geometry.trans hg, fun r k hr hk => ?_⟩
    rw [(hsame _).cell]
    exact hcell r k hr hk

end WaluOs
