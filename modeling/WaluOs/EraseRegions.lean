import WaluOs.EscapeRestarts

/-!
# What the erase commands erase

`J` and `K` clear ranges of lines. Each clears exactly its own region in the current colour and
leaves the other cells, the cursor and the colours alone (`erase_region`); `J` with parameter 2 is
`console_clear` and not looked at here.

`Erases` says what a piece of drawing has erased. Two pieces in a row have erased both regions
(`Erases.trans`), and everything else follows from the one cell that `backend_put_cell` blanks.
-/

namespace WaluOs

open Loops

variable {c c₁ c₂ : Console} {R S : ℕ → ℕ → Prop}

/-- On the screen of `c'` the cells of a region are blank in the colour of `c`, and the others are
those of `c`. Together they say what each cell of the screen is, so there is nothing left to say
about the picture. -/
structure Blanks (c c' : Console) (R : ℕ → ℕ → Prop) : Prop where
  geometry : c'.toGeometry = c.toGeometry
  blank : ∀ row col, row < c.termRows → col < c.termCols → R row col →
    c'.cell row col = vgaEntry 0x20 (currentVgaColor c.toTerm)
  kept : ∀ row col, row < c.termRows → col < c.termCols → ¬R row col →
    c'.cell row col = c.cell row col

/-- Nothing but that is different: the cursor, the colours and the parser are left as they were.
-/
structure Erases (c c' : Console) (R : ℕ → ℕ → Prop) : Prop extends Blanks c c' R where
  term : c'.toTerm = c.toTerm

namespace Erases

/-- Nothing is erased. -/
theorem none (c : Console)
    (hR : ∀ row col, row < c.termRows → col < c.termCols → ¬R row col) : Erases c c R :=
  ⟨⟨rfl, fun row col hrow hcol h => absurd h (hR row col hrow hcol), fun _ _ _ _ _ => rfl⟩, rfl⟩

theorem rows (h : Erases c c₁ R) : c₁.termRows = c.termRows := congrArg Geometry.termRows h.geometry

theorem cols (h : Erases c c₁ R) : c₁.termCols = c.termCols := congrArg Geometry.termCols h.geometry

/-- Only what is on the screen counts. -/
theorem congr (h : Erases c c₁ R)
    (hRS : ∀ row col, row < c.termRows → col < c.termCols → (R row col ↔ S row col)) :
    Erases c c₁ S :=
  ⟨⟨h.geometry,
    fun row col hrow hcol hS => h.blank row col hrow hcol ((hRS row col hrow hcol).mpr hS),
    fun row col hrow hcol hS =>
      h.kept row col hrow hcol fun hR => hS ((hRS row col hrow hcol).mp hR)⟩, h.term⟩

/-- One after the other. -/
theorem trans (h : Erases c c₁ R) (h' : Erases c₁ c₂ S) :
    Erases c c₂ fun row col => R row col ∨ S row col := by
  refine ⟨⟨h'.geometry.trans h.geometry, ?_, ?_⟩, h'.term.trans h.term⟩
  · intro row col hrow hcol hRS
    have hrow' : row < c₁.termRows := h.rows ▸ hrow
    have hcol' : col < c₁.termCols := h.cols ▸ hcol
    by_cases hS : S row col
    · rw [h'.blank row col hrow' hcol' hS, h.term]
    · rw [h'.kept row col hrow' hcol' hS]
      exact h.blank row col hrow hcol (hRS.resolve_right hS)
  · intro row col hrow hcol hRS
    rw [h'.kept row col (h.rows ▸ hrow) (h.cols ▸ hcol) fun hS => hRS (Or.inr hS)]
    exact h.kept row col hrow hcol fun hR => hRS (Or.inl hR)

end Erases

/-! ## Cells, ranges and rows -/

/-- One cell. -/
theorem putBlank_erases (c : Console) (row col : ℕ) (hrow : row < c.termRows)
    (hcol : col < c.termCols) :
    Erases c (c.draw fun d => backendPutCell d row col 0x20 (currentVgaColor c.toTerm))
      fun r k => r = row ∧ k = col := by
  have hcell : ∀ r k, k < c.termCols →
      (backendPutCell c.toDisplay row col 0x20 (currentVgaColor c.toTerm)).cell r k =
        if r = row ∧ k = col then vgaEntry 0x20 (currentVgaColor c.toTerm) else c.cell r k :=
    fun r k hk => backendPutCell_cell hrow hcol (by decide) _ hk
  refine ⟨⟨backendPutCell_geometry _ _ _ _ _, fun r k _ hk hR => ?_, fun r k _ hk hR => ?_⟩, rfl⟩
  · exact (hcell r k hk).trans (if_pos hR)
  · exact (hcell r k hk).trans (if_neg hR)

/-- A range of columns. -/
theorem clearLineRange_erases (c : Console) (row first last : ℕ) (hrow : row < c.termRows)
    (hlast : last < c.termCols) (hle : first ≤ last) :
    Erases c (clearLineRange c row first last) fun r k => r = row ∧ first ≤ k ∧ k ≤ last := by
  let color := currentVgaColor c.toTerm
  let body (d : Display) (x : ℕ) : Display := backendPutCell d row x 0x20 color
  let Inv (n : ℕ) (d : Display) : Prop :=
    Erases c { c with toDisplay := d } fun r k => r = row ∧ first ≤ k ∧ k < n
  have hstart : Inv first c.toDisplay := Erases.none c fun r k _ _ => by omega
  have hloop : Inv (last + 1) (forRange first (last + 1) body c.toDisplay) := by
    refine forRange_rule Inv (Nat.le_succ_of_le hle) hstart fun x d hx hxlast hd => ?_
    have hput := putBlank_erases { c with toDisplay := d } row x
      (hd.rows ▸ hrow) (by rw [hd.cols]; omega)
    exact (hd.trans hput).congr fun r k _ _ => by omega
  have hclear : clearLineRange c row first last =
      { c with toDisplay := forRange first (last + 1) body c.toDisplay } := by
    have hfirst : first < c.termCols := Nat.lt_of_le_of_lt hle hlast
    rw [clearLineRange, if_neg (Nat.not_le.mpr hrow)]
    simp only [if_neg (Nat.not_le.mpr hfirst), if_neg (Nat.not_le.mpr hlast),
      if_neg (Nat.not_lt.mpr hle)]
    rfl
  rw [hclear]
  exact hloop.congr fun r k _ _ => by omega

/-- Whole rows. -/
theorem clearRows_erases (c : Console) (first last : ℕ) (hcols : 0 < c.termCols)
    (hle : first ≤ last) (hlast : last ≤ c.termRows) :
    Erases c (forRange first last (fun c y => clearLineRange c y 0 (c.termCols - 1)) c)
      fun r _ => first ≤ r ∧ r < last := by
  refine forRange_rule (fun n c' => Erases c c' fun r _ => first ≤ r ∧ r < n) hle
    (Erases.none c fun r k _ _ => by omega) fun y c' hy hylast hc' => ?_
  have hrow : y < c'.termRows := by
    rw [hc'.rows]
    omega
  have hcol : c'.termCols - 1 < c'.termCols := by
    rw [hc'.cols]
    omega
  have hclear := clearLineRange_erases c' _ _ _ hrow hcol (Nat.zero_le _)
  refine (hc'.trans hclear).congr fun r k _ hk => ?_
  rw [hc'.cols]
  omega

/-! ## The commands -/

/-- `(row, col)` is not behind `(row', col')`, reading line by line. -/
def ReadsUpTo (row col row' col' : ℕ) : Prop := row < row' ∨ (row = row' ∧ col ≤ col')

/-- What `J` erases, with the cursor at `(row, col)`: from it to the end of the screen, or from
the beginning of the screen up to it, the cell of the cursor included. Mode 2 is not among them,
since it clears the screen and moves the cursor. -/
def displayRegion (mode : ℤ) (row col : ℕ) (r k : ℕ) : Prop :=
  (mode = 0 ∧ ReadsUpTo row col r k) ∨ (mode = 1 ∧ ReadsUpTo r k row col)

/-- What `K` erases: from the cursor to the end of its row, from the beginning of the row up to
it, or the whole row. -/
def lineRegion (mode : ℤ) (row col : ℕ) (r k : ℕ) : Prop :=
  r = row ∧ ((mode = 0 ∧ col ≤ k) ∨ (mode = 1 ∧ k ≤ col) ∨ mode = 2)

/-- The cursor is on the screen. On every console that is reached it is, and the regions are then
regions of cells that there are. -/
structure OnScreen (c : Console) : Prop where
  row : c.cursorRow < c.termRows
  col : c.cursorCol < c.termCols

theorem ansiEraseLine_erases (h : OnScreen c) :
    Erases c (ansiEraseLine c)
      (lineRegion (ansiParamAt c.toTerm 0 0) c.cursorRow c.cursorCol) := by
  have hcol := h.col
  rw [ansiEraseLine]
  generalize ansiParamAt c.toTerm 0 0 = mode
  by_cases h0 : mode = 0
  · rw [if_pos h0]
    refine (clearLineRange_erases c _ _ _ h.row (by omega) (by omega)).congr fun r k _ hk => ?_
    rw [lineRegion]
    omega
  by_cases h1 : mode = 1
  · rw [if_neg h0, if_pos h1]
    refine (clearLineRange_erases c _ _ _ h.row h.col (Nat.zero_le _)).congr fun r k _ hk => ?_
    rw [lineRegion]
    omega
  by_cases h2 : mode = 2
  · rw [if_neg h0, if_neg h1, if_pos h2]
    refine (clearLineRange_erases c _ _ _ h.row (by omega) (Nat.zero_le _)).congr fun r k _ hk => ?_
    rw [lineRegion]
    omega
  · rw [if_neg h0, if_neg h1, if_neg h2]
    refine Erases.none c fun r k _ _ => ?_
    rw [lineRegion]
    omega

/-- `J` erases its region, in every mode but 2. Each mode is a loop over whole rows and a part of
the row of the cursor, and the parts together are the region. -/
theorem ansiEraseDisplay_erases (h : OnScreen c) (hmode : ansiParamAt c.toTerm 0 0 ≠ 2) :
    Erases c (ansiEraseDisplay c)
      (displayRegion (ansiParamAt c.toTerm 0 0) c.cursorRow c.cursorCol) := by
  have hrow := h.row
  have hcol := h.col
  rw [ansiEraseDisplay]
  dsimp only
  rw [if_neg hmode]
  generalize ansiParamAt c.toTerm 0 0 = mode
  by_cases h0 : mode = 0
  · -- the rest of the line, then the lines below
    rw [if_pos h0]
    have hline := clearLineRange_erases c _ _ (c.termCols - 1) h.row (by omega)
      (Nat.le_sub_one_of_lt hcol)
    have hrest := clearRows_erases (clearLineRange c c.cursorRow c.cursorCol (c.termCols - 1))
      (c.cursorRow + 1) c.termRows (by rw [hline.cols]; omega) (by omega) (by rw [hline.rows])
    have hcursor : (clearLineRange c c.cursorRow c.cursorCol (c.termCols - 1)).cursorRow =
        c.cursorRow := by rw [hline.term]
    rw [hcursor, hline.rows]
    refine (hline.trans hrest).congr fun r k _ hk => ?_
    rw [displayRegion, ReadsUpTo, ReadsUpTo]
    omega
  by_cases h1 : mode = 1
  · -- the lines above, then the beginning of the line
    rw [if_neg h0, if_pos h1]
    have habove := clearRows_erases c 0 c.cursorRow (by omega) (Nat.zero_le _) hrow.le
    let c' := forRange 0 c.cursorRow (fun c y => clearLineRange c y 0 (c.termCols - 1)) c
    have hrow' : c'.cursorRow = c.cursorRow := congrArg Term.cursorRow habove.term
    have hcol' : c'.cursorCol = c.cursorCol := congrArg Term.cursorCol habove.term
    have hline := clearLineRange_erases c' c'.cursorRow 0 c'.cursorCol
      (by rw [hrow', habove.rows]; exact hrow) (by rw [hcol', habove.cols]; exact hcol)
      (Nat.zero_le _)
    refine (habove.trans hline).congr fun r k _ hk => ?_
    rw [displayRegion, ReadsUpTo, ReadsUpTo]
    omega
  · rw [if_neg h0, if_neg h1]
    refine Erases.none c fun r k _ _ => ?_
    rw [displayRegion, ReadsUpTo, ReadsUpTo]
    omega

/-! ## At the final byte -/

theorem csiCall_toTerm (c : Console) (final : UInt8) :
    (csiCall c final).toTerm = ansiPushCurrentParam c.toTerm :=
  congrArg ansiPushCurrentParam (serialWriteChar_toTerm c final)

theorem csiCall_toDisplay (c : Console) (final : UInt8) :
    (csiCall c final).toDisplay = c.toDisplay := serialWriteChar_toDisplay c final

/-- The first parameter, as `J` and `K` read it at the final byte. The number that is still being
read is pushed first, and a missing one counts as 0. -/
def eraseMode (c : Console) : ℤ := ansiParamAt (ansiPushCurrentParam c.toTerm) 0 0

/-- The parameter of ESC `[` m is m, and no parameter is 0. -/
theorem eraseMode_field (hground : c.ansiParserState = .ground) {field : List UInt8}
    (hfield : IsCsiField field) :
    eraseMode (([0x1B, 0x5B] ++ csiFields [field]).foldl consolePutc c) = fieldValue field := by
  have hparams := csiCall_params hground field (by decide)
    (List.forall_mem_singleton.mpr hfield) 0x4A
  rw [eraseMode, ← csiCall_toTerm _ 0x4A, ansiParamAt, hparams]
  cases field <;> rfl

/-- The console in some state of a run, from `console_init` on any memory on. All that the kernel
does to its console is such a run. -/
def ConsoleReached (c : Console) : Prop :=
  ∃ (c₀ : Console) (ops : List ConsoleOp),
    c = ops.foldl consoleOp (consoleInit { c₀ with trace := [] })

theorem ConsoleReached.onScreen (h : ConsoleReached c) : OnScreen c := by
  obtain ⟨c₀, ops, rfl⟩ := h
  have hin := consoleRun_inBounds c₀ ops
  exact ⟨hin.row, hin.col⟩

/-- What `ansi_execute_csi` erases at the final byte. -/
theorem Erases.atFinal {final : UInt8} (hcsi : c.ansiParserState = .csi) (hfinal : IsFinal final)
    (h : Erases (csiCall c final) (ansiExecuteCsi (csiCall c final) final) R) :
    Blanks c (consolePutc c final) R ∧
      (consolePutc c final).toTerm =
        ansiResetParams { c.toTerm with ansiParserState := .ground } := by
  have hdisplay := csiCall_toDisplay c final
  have hcolor : currentVgaColor (csiCall c final).toTerm = currentVgaColor c.toTerm := by
    rw [csiCall_toTerm, ← currentVgaColor_reset, reset_push, currentVgaColor_reset]
  rw [consolePutc_final hcsi hfinal]
  refine ⟨⟨?_, fun row col hrow hcol hR => ?_, fun row col hrow hcol hR => ?_⟩, ?_⟩
  · exact h.geometry.trans (congrArg Display.toGeometry hdisplay)
  · rw [← hcolor]
    exact h.blank row col (by rwa [hdisplay]) (by rwa [hdisplay]) hR
  · refine (h.kept row col (by rwa [hdisplay]) (by rwa [hdisplay]) hR).trans ?_
    rw [hdisplay]
  · have hreset : ansiResetParams (ansiExecuteCsi (csiCall c final) final).toTerm =
        ansiResetParams c.toTerm := by rw [h.term, csiCall_toTerm, reset_push]
    show { ansiResetParams (ansiExecuteCsi (csiCall c final) final).toTerm with
      ansiParserState := .ground } = _
    rw [hreset]
    rfl

/-- **The erase commands erase their region**, and leave the rest of the terminal as it is but for
the parser. -/
theorem erase_region (c : Console) (hreached : ConsoleReached c)
    (hcsi : c.ansiParserState = .csi) :
    (eraseMode c ≠ 2 →
      Blanks c (consolePutc c 0x4A) (displayRegion (eraseMode c) c.cursorRow c.cursorCol) ∧
        (consolePutc c 0x4A).toTerm =
          ansiResetParams { c.toTerm with ansiParserState := .ground }) ∧
    Blanks c (consolePutc c 0x4B) (lineRegion (eraseMode c) c.cursorRow c.cursorCol) ∧
      (consolePutc c 0x4B).toTerm =
        ansiResetParams { c.toTerm with ansiParserState := .ground } := by
  have hscreen := hreached.onScreen
  -- pushing the last parameter moves no cursor
  have hpushRow := congrArg Term.cursorRow (reset_push c.toTerm)
  have hpushCol := congrArg Term.cursorCol (reset_push c.toTerm)
  have hrow : ∀ final, (csiCall c final).cursorRow = c.cursorRow := fun final => by
    rw [csiCall_toTerm]
    exact hpushRow
  have hcol : ∀ final, (csiCall c final).cursorCol = c.cursorCol := fun final => by
    rw [csiCall_toTerm]
    exact hpushCol
  have hcall : ∀ final, OnScreen (csiCall c final) := fun final =>
    ⟨by rw [hrow, csiCall_toDisplay]; exact hscreen.row,
      by rw [hcol, csiCall_toDisplay]; exact hscreen.col⟩
  have hmode : ∀ final, ansiParamAt (csiCall c final).toTerm 0 0 = eraseMode c := fun final => by
    rw [csiCall_toTerm, eraseMode]
  constructor
  · intro htwo
    refine Erases.atFinal hcsi (by decide) ?_
    have herase := ansiEraseDisplay_erases (hcall 0x4A) (by rwa [hmode])
    rwa [hmode, hrow, hcol] at herase
  · refine Erases.atFinal hcsi (by decide) ?_
    have herase := ansiEraseLine_erases (hcall 0x4B)
    rwa [hmode, hrow, hcol] at herase

/-- `ab`, a new line, `cd`, the cursor on the `b`, and the beginning of ESC `[` `1` `K`. -/
def eraseStart : Console :=
  ([0x61, 0x62, 0x0A, 0x63, 0x64, 0x1B, 0x5B, 0x31, 0x3B, 0x32, 0x48, 0x1B, 0x5B, 0x31].map
    fun byte => ConsoleOp.call (.putc byte)).foldl consoleOp
    (consoleInit { idleConsole vgaText with trace := [] })

/-- It erases both letters of the first line. -/
theorem erase_region_start :
    (eraseMode eraseStart = 1 ∧ eraseStart.cursorRow = 0 ∧ eraseStart.cursorCol = 1) ∧
      Blanks eraseStart (consolePutc eraseStart 0x4B)
        (lineRegion (eraseMode eraseStart) eraseStart.cursorRow eraseStart.cursorCol) :=
  ⟨by decide +kernel,
    (erase_region eraseStart ⟨idleConsole vgaText, _, rfl⟩ (by decide +kernel)).2.1⟩

end WaluOs
