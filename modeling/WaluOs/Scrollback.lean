import Mathlib.Data.Nat.Notation
import Mathlib.Tactic.Common

/-!
# A scrolling screen as a window on an unbounded page

Text is laid out on a page without a last row. A screen of `rows` rows does the
same and then settles: a cursor that left the screen at the bottom pushes every row
up by one. `Window` says that the screen is then some rows of the page, and `Shows` that they
are its last ones.
-/

namespace Scrollback

universe u

variable {α : Type u}

/-- Cells and a cursor, without edges: rows and columns go on for ever. A screen is such a page of
which only the first `rows` rows count. -/
structure Page (α : Type u) : Type u where
  cells : ℕ → ℕ → α
  row : ℕ
  col : ℕ

/-- Nothing written yet: each cell holds `a`, and the cursor is in the first one. -/
def Page.blank (a : α) : Page α := { cells := fun _ _ => a, row := 0, col := 0 }

/-- Write at the cursor. -/
def Page.write (p : Page α) (a : α) : Page α :=
  { p with cells := fun r k => if r = p.row ∧ k = p.col then a else p.cells r k }

/-- To the next column, and at the right margin to the start of the next row. -/
def Page.advance (cols : ℕ) (p : Page α) : Page α :=
  { p with
    row := if cols ≤ p.col + 1 then p.row + 1 else p.row
    col := if cols ≤ p.col + 1 then 0 else p.col + 1 }

/-- Write at the cursor and advance. -/
def Page.put (cols : ℕ) (p : Page α) (a : α) : Page α := (p.write a).advance cols

/-- To the start of the next row. -/
def Page.newline (p : Page α) : Page α := { p with row := p.row + 1, col := 0 }

/-- To the start of the row. -/
def Page.ret (p : Page α) : Page α := { p with col := 0 }

/-- Scroll when the cursor is below the last row. -/
def Page.settle (rows : ℕ) (a : α) (p : Page α) : Page α :=
  if p.row < rows then
    p
  else
    { p with
      cells := fun r k => if r + 1 < rows then p.cells (r + 1) k else a
      row := rows - 1 }

/-- The same page with other signs. -/
def Page.map {β : Type u} (f : α → β) (p : Page α) : Page β :=
  { cells := fun r k => f (p.cells r k), row := p.row, col := p.col }

theorem Page.map_settle {β : Type u} (f : α → β) (rows : ℕ) (a : α) (p : Page α) :
    (p.settle rows a).map f = (p.map f).settle rows (f a) := by
  have hrow : (p.map f).row = p.row := rfl
  rw [Page.settle, Page.settle, hrow]
  split
  · rfl
  · simp only [Page.map, apply_ite f]

theorem Page.map_put {β : Type u} (f : α → β) (cols : ℕ) (p : Page α) (a : α) :
    (p.put cols a).map f = (p.map f).put cols (f a) := by
  have hwrite : (p.write a).map f = (p.map f).write (f a) := by
    refine congrArg (Page.mk · p.row p.col) (funext fun r => funext fun k => ?_)
    exact apply_ite f ..
  exact congrArg (Page.advance cols) hwrite

/-- How many rows of the page have scrolled off a screen of `rows` rows. -/
def Page.offset (rows : ℕ) (p : Page α) : ℕ := p.row - (rows - 1)

/-- The screen `s` is the `rows` rows of the page `p` from `top` on, and the page has nothing
below them, so that a row that scrolls in is blank. Where `top` is depends on how often the screen
has scrolled. -/
structure Window (rows cols : ℕ) (a : α) (top : ℕ) (s p : Page α) : Prop where
  row_lt : s.row < rows
  col_lt : s.col < cols
  row : s.row + top = p.row
  col : s.col = p.col
  cells : ∀ r k, r < rows → s.cells r k = p.cells (r + top) k
  below : ∀ r k, top + rows ≤ r → p.cells r k = a

/-- The screen `s` is the last `rows` rows of the page `p`. Nothing is written below the page's
cursor, so that a row that scrolls in is blank. It is a window whose place is told by the cursor
of the page. -/
structure Shows (rows cols : ℕ) (a : α) (s p : Page α) : Prop where
  row_lt : s.row < rows
  col_lt : s.col < cols
  row : s.row + p.offset rows = p.row
  col : s.col = p.col
  cells : ∀ r k, r < rows → s.cells r k = p.cells (r + p.offset rows) k
  below : ∀ r k, p.row < r → p.cells r k = a

variable {rows cols : ℕ} {a : α} {s p : Page α}

/-- Settling after the cursor went down by at most one row. If the screen scrolls, the window
moves down by a row of the page, which is blank there. -/
theorem Window.settle (h : Window rows cols a (p.offset rows) s p) {s' p' : Page α} {n : ℕ}
    (hn : n ≤ 1) (hrow : s'.row = s.row + n) (hrow' : p'.row = p.row + n) (hcol_lt : s'.col < cols)
    (hcol : s'.col = p'.col)
    (hcells : ∀ r k, r < rows → s'.cells r k = p'.cells (r + p.offset rows) k)
    (hbelow : ∀ r k, p.offset rows + rows ≤ r → p'.cells r k = a) :
    Window rows cols a (p'.offset rows) (s'.settle rows a) p' := by
  have hlt := h.row_lt
  have hpos := h.row
  rw [Page.settle]
  split
  · rename_i hsettled
    have hoffset : p'.offset rows = p.offset rows := by
      unfold Page.offset at *
      omega
    rw [hoffset]
    exact ⟨hsettled, hcol_lt, by omega, hcol, hcells, hbelow⟩
  · -- The cursor was on the last row, and the page is one row further on.
    have hoffset : p'.offset rows = p.offset rows + 1 := by
      unfold Page.offset at *
      omega
    rw [hoffset]
    refine ⟨Nat.sub_lt (Nat.zero_lt_of_lt hlt) Nat.one_pos, hcol_lt, ?_, hcol, fun r k hr => ?_,
      fun r k hr => hbelow r k (by omega)⟩
    · show rows - 1 + (p.offset rows + 1) = p'.row
      omega
    · dsimp only
      split
      · rename_i hnext
        rw [hcells (r + 1) k hnext, Nat.add_assoc, Nat.add_comm 1]
      · exact (hbelow _ k (by omega)).symm

theorem Page.put_cells (cols : ℕ) (p : Page α) (c : α) (r k : ℕ) :
    (p.put cols c).cells r k = if r = p.row ∧ k = p.col then c else p.cells r k := rfl

theorem Page.put_row (cols : ℕ) (p : Page α) (c : α) :
    (p.put cols c).row = if cols ≤ p.col + 1 then p.row + 1 else p.row := rfl

theorem Page.put_col (cols : ℕ) (p : Page α) (c : α) :
    (p.put cols c).col = if cols ≤ p.col + 1 then 0 else p.col + 1 := rfl

/-- A cell of the screen is written where its cell of the page is. -/
theorem Window.row_iff {top : ℕ} (h : Window rows cols a top s p) (r : ℕ) :
    r = s.row ↔ r + top = p.row := by
  rw [← h.row]
  exact Nat.add_right_cancel_iff.symm

/-- A character that is written on both. -/
theorem Window.put (h : Window rows cols a (p.offset rows) s p) (c : α) :
    Window rows cols a ((p.put cols c).offset rows) ((s.put cols c).settle rows a)
      (p.put cols c) := by
  have hcells : ∀ r k, r < rows →
      (s.put cols c).cells r k = (p.put cols c).cells (r + p.offset rows) k := by
    intro r k hr
    rw [Page.put_cells, Page.put_cells, h.cells r k hr, h.col]
    simp only [h.row_iff]
  have hbelow : ∀ r k, p.offset rows + rows ≤ r → (p.put cols c).cells r k = a := by
    intro r k hr
    have hrow := h.row
    have hlt := h.row_lt
    rw [Page.put_cells, if_neg (by omega), h.below r k hr]
  have hcols : 0 < cols := Nat.zero_lt_of_lt h.col_lt
  by_cases hwrap : cols ≤ p.col + 1
  · refine h.settle (n := 1) (Nat.le_refl 1) ?_ ?_ ?_ ?_ hcells hbelow
    · rw [Page.put_row, h.col, if_pos hwrap]
    · rw [Page.put_row, if_pos hwrap]
    · rwa [Page.put_col, h.col, if_pos hwrap]
    · rw [Page.put_col, Page.put_col, h.col]
  · refine h.settle (n := 0) (Nat.zero_le 1) ?_ ?_ ?_ ?_ hcells hbelow
    · rw [Page.put_row, h.col, if_neg hwrap, Nat.add_zero]
    · rw [Page.put_row, if_neg hwrap, Nat.add_zero]
    · rw [Page.put_col, h.col, if_neg hwrap]
      exact Nat.lt_of_not_le hwrap
    · rw [Page.put_col, Page.put_col, h.col]

theorem Window.newline (h : Window rows cols a (p.offset rows) s p) :
    Window rows cols a (p.newline.offset rows) (s.newline.settle rows a) p.newline :=
  h.settle (n := 1) (Nat.le_refl 1) rfl rfl (Nat.zero_lt_of_lt h.col_lt) rfl h.cells h.below

/-! ## The last rows of the page -/

theorem Shows.blank (hrows : 0 < rows) (hcols : 0 < cols) (a : α) :
    Shows rows cols a (Page.blank a) (Page.blank a) :=
  ⟨hrows, hcols, by simp [Page.blank, Page.offset], rfl, fun _ _ _ => rfl, fun _ _ _ => rfl⟩

/-- They are a window, with nothing below the cursor. -/
theorem shows_iff : Shows rows cols a s p ↔
    Window rows cols a (p.offset rows) s p ∧ ∀ r k, p.row < r → p.cells r k = a := by
  constructor
  · intro h
    have hrow := h.row
    have hlt := h.row_lt
    exact ⟨⟨h.row_lt, h.col_lt, h.row, h.col, h.cells, fun r k hr => h.below r k (by omega)⟩,
      h.below⟩
  · exact fun ⟨h, hbelow⟩ => ⟨h.row_lt, h.col_lt, h.row, h.col, h.cells, hbelow⟩

/-- A character that is written on both. -/
theorem Shows.put (h : Shows rows cols a s p) (c : α) :
    Shows rows cols a ((s.put cols c).settle rows a) (p.put cols c) := by
  obtain ⟨hwindow, hbelow⟩ := shows_iff.mp h
  refine shows_iff.mpr ⟨hwindow.put c, fun r k hr => ?_⟩
  have hdown : p.row < r := by
    rw [Page.put_row] at hr
    split at hr <;> omega
  rw [Page.put_cells, if_neg (by omega), hbelow r k hdown]

theorem Shows.newline (h : Shows rows cols a s p) :
    Shows rows cols a (s.newline.settle rows a) p.newline := by
  obtain ⟨hwindow, hbelow⟩ := shows_iff.mp h
  exact shows_iff.mpr ⟨hwindow.newline, fun r k hr => hbelow r k (Nat.lt_of_succ_lt hr)⟩

theorem Shows.ret (h : Shows rows cols a s p) : Shows rows cols a s.ret p.ret :=
  ⟨h.row_lt, Nat.zero_lt_of_lt h.col_lt, h.row, rfl, h.cells, h.below⟩

/-! ## Positions -/

/-- The cursor, counted from the start of the page, row by row. -/
def Page.pos (cols : ℕ) (p : Page α) : ℕ := p.row * cols + p.col

/-- The row of a position. -/
theorem div_cols {k : ℕ} (hk : k < cols) (r : ℕ) : (r * cols + k) / cols = r := by
  rw [Nat.mul_comm, Nat.mul_add_div (Nat.zero_lt_of_lt hk), Nat.div_eq_of_lt hk, Nat.add_zero]

/-- A position has one row and one column. -/
theorem position_eq_iff {r k r' k' : ℕ} (hk : k < cols) (hk' : k' < cols) :
    r * cols + k = r' * cols + k' ↔ r = r' ∧ k = k' := by
  refine ⟨fun h => ?_, fun ⟨hr, hk⟩ => by rw [hr, hk]⟩
  have hrow := congrArg (· / cols) h
  simp only [div_cols hk, div_cols hk'] at hrow
  subst hrow
  exact ⟨rfl, Nat.add_left_cancel h⟩

/-- And so has the cursor. -/
theorem pos_eq_iff (hcol : p.col < cols) {r k : ℕ} (hk : k < cols) :
    r * cols + k = p.pos cols ↔ r = p.row ∧ k = p.col := position_eq_iff hk hcol

theorem Page.row_eq (hcol : p.col < cols) : p.row = p.pos cols / cols := (div_cols hcol _).symm

theorem Page.col_eq (hcol : p.col < cols) : p.col = p.pos cols % cols :=
  (Nat.mul_add_mod_of_lt hcol).symm

/-- A put goes one position on. -/
theorem Page.put_pos (hcol : p.col < cols) (c : α) :
    (p.put cols c).col < cols ∧ (p.put cols c).pos cols = p.pos cols + 1 := by
  rw [Page.pos, Page.pos, Page.put_row, Page.put_col]
  split
  · refine ⟨Nat.zero_lt_of_lt hcol, ?_⟩
    rw [Nat.succ_mul]
    omega
  · exact ⟨by omega, (Nat.add_assoc ..).symm⟩

/-! ## Taking back -/

/-- To the column before, and at the left margin to the end of the row above. -/
def Page.retreat (cols : ℕ) (p : Page α) : Page α :=
  if p.col = 0 then { p with row := p.row - 1, col := cols - 1 } else { p with col := p.col - 1 }

/-- Go back, and write there. -/
def Page.erase (cols : ℕ) (a : α) (p : Page α) : Page α := (p.retreat cols).write a

/-- An erase goes one position back, from all but the first. -/
theorem Page.erase_pos (hcol : p.col < cols) (hfirst : 0 < p.pos cols) (a : α) :
    (p.erase cols a).col < cols ∧ (p.erase cols a).pos cols + 1 = p.pos cols := by
  show (p.retreat cols).col < cols ∧ (p.retreat cols).row * cols + (p.retreat cols).col + 1 = _
  rw [Page.pos] at hfirst ⊢
  rw [Page.retreat]
  split
  · rename_i hmargin
    rw [hmargin, Nat.add_zero] at hfirst ⊢
    obtain ⟨row, hrow⟩ := Nat.exists_eq_add_one.mpr (Nat.pos_of_mul_pos_right hfirst)
    refine ⟨Nat.sub_lt (Nat.zero_lt_of_lt hcol) Nat.one_pos, ?_⟩
    rw [hrow, Nat.succ_mul, Nat.add_sub_cancel, Nat.add_assoc,
      Nat.sub_add_cancel (Nat.zero_lt_of_lt hcol)]
    rfl
  · exact ⟨by dsimp only; omega, by dsimp only; omega⟩

theorem Page.erase_cells (cols : ℕ) (a : α) (p : Page α) (r k : ℕ) :
    (p.erase cols a).cells r k =
      if r = (p.erase cols a).row ∧ k = (p.erase cols a).col then a else p.cells r k := by
  have hcells : (p.retreat cols).cells = p.cells := by
    rw [Page.retreat]
    split <;> rfl
  rw [← hcells]
  rfl

/-- An erase on both, unless the screen's cursor is at its first cell. -/
theorem Window.erase {top : ℕ} (h : Window rows cols a top s p)
    (hfirst : ¬(s.col = 0 ∧ s.row = 0)) :
    Window rows cols a top (s.erase cols a) (p.erase cols a) := by
  have hcursor : (s.erase cols a).row < rows ∧ (s.erase cols a).col < cols ∧
      (s.erase cols a).row + top = (p.erase cols a).row ∧
        (s.erase cols a).col = (p.erase cols a).col := by
    obtain ⟨hrow_lt, hcol_lt, hrow, hcol, -, -⟩ := h
    show (s.retreat cols).row < rows ∧ (s.retreat cols).col < cols ∧
      (s.retreat cols).row + top = (p.retreat cols).row ∧
        (s.retreat cols).col = (p.retreat cols).col
    rw [Page.retreat, Page.retreat, ← hcol]
    split
    · dsimp only
      omega
    · dsimp only
      omega
  obtain ⟨hrow_lt, hcol_lt, hrow, hcol⟩ := hcursor
  refine ⟨hrow_lt, hcol_lt, hrow, hcol, fun r k hr => ?_, fun r k hr => ?_⟩
  · rw [Page.erase_cells, Page.erase_cells, h.cells r k hr, ← hrow, ← hcol]
    simp only [Nat.add_right_cancel_iff]
  · rw [Page.erase_cells, if_neg (by omega), h.below r k hr]

/-- `w` characters were written on the page `p₀`: the cursor has gone on by so many cells, and no
other cells were touched. -/
structure Wrote (cols : ℕ) (p₀ : Page α) (w : ℕ) (p : Page α) : Prop where
  col_lt : p.col < cols
  pos : p.pos cols = p₀.pos cols + w
  others : ∀ r k, k < cols → (r * cols + k < p₀.pos cols ∨ p₀.pos cols + w ≤ r * cols + k) →
    p.cells r k = p₀.cells r k

/-- Then `m` of them were taken back: the cursor has gone back by so many cells, and these are
blank again. -/
structure TookBack (cols : ℕ) (a : α) (p₀ : Page α) (w m : ℕ) (p : Page α) : Prop where
  col_lt : p.col < cols
  pos : p.pos cols + m = p₀.pos cols + w
  blank : ∀ r k, k < cols → p.pos cols ≤ r * cols + k → r * cols + k < p₀.pos cols + w →
    p.cells r k = a
  others : ∀ r k, k < cols → (r * cols + k < p₀.pos cols ∨ p₀.pos cols + w ≤ r * cols + k) →
    p.cells r k = p₀.cells r k

variable {p₀ : Page α} {w m : ℕ}

theorem Wrote.start (hcol : p.col < cols) : Wrote cols p 0 p := ⟨hcol, rfl, fun _ _ _ _ => rfl⟩

theorem Wrote.put (h : Wrote cols p₀ w p) (c : α) : Wrote cols p₀ (w + 1) (p.put cols c) := by
  obtain ⟨hcol, hpos⟩ := Page.put_pos h.col_lt c
  refine ⟨hcol, by rw [hpos, h.pos, Nat.add_assoc], fun r k hk hout => ?_⟩
  have hother : r * cols + k ≠ p.pos cols := by
    rw [h.pos]
    omega
  rw [Page.put_cells, if_neg (mt (pos_eq_iff h.col_lt hk).mpr hother), h.others r k hk (by omega)]

theorem Wrote.tookBack (h : Wrote cols p₀ w p) (a : α) : TookBack cols a p₀ w 0 p := by
  refine ⟨h.col_lt, h.pos, fun r k _ hge hlt => ?_, h.others⟩
  rw [h.pos] at hge
  omega

theorem TookBack.erase (h : TookBack cols a p₀ w m p) (hm : m < w) :
    TookBack cols a p₀ w (m + 1) (p.erase cols a) := by
  have hbefore := h.pos
  obtain ⟨hcol, hpos⟩ := Page.erase_pos h.col_lt (by omega) a
  refine ⟨hcol, by omega, fun r k hk hge hlt => ?_, fun r k hk hout => ?_⟩
  · rw [Page.erase_cells]
    split
    · rfl
    · rename_i hother
      have hne := mt (pos_eq_iff hcol hk).mp hother
      exact h.blank r k hk (by omega) hlt
  · have hother : r * cols + k ≠ (p.erase cols a).pos cols := by omega
    rw [Page.erase_cells, if_neg (mt (pos_eq_iff hcol hk).mpr hother), h.others r k hk hout]

/-- What has been written did not push the place where it starts off the screen. -/
theorem Wrote.offset_le (h : Wrote cols p₀ w p) (hcol : p₀.col < cols)
    (hw : w < (rows - 1) * cols) : p.offset rows * cols ≤ p₀.pos cols := by
  have hrow : p.row < p₀.row + 1 + (rows - 1) := by
    refine Nat.lt_of_mul_lt_mul_right (a := cols) ?_
    have hpos := h.pos
    rw [Page.pos, Page.pos] at hpos
    rw [Nat.add_mul, Nat.succ_mul]
    omega
  have hle : p.offset rows ≤ p₀.row := by
    rw [Page.offset]
    omega
  exact Nat.le_trans (Nat.mul_le_mul_right cols hle) (Nat.le_add_right _ _)

end Scrollback
