import WaluOs.Console

/-!
# Two consoles in step

The terminal never looks at its display. So two consoles with the same terminal
state make the same decisions, and whatever relates their displays stays true as
long as each of the three drawing functions keeps it. `DrawRel` says that of a
relation, and `Sim` is what then holds of the consoles through every call.

A property of a single console is the case where both consoles are the same one.
`Sim` also carries the bounds of the terminal state, because the drawing functions
only have to keep the relation for positions that are on the screen.
-/

namespace WaluOs

open Loops

/-- A relation between displays that drawing the same thing on both keeps. Everything the console
does with a display is one of these operations, so such a relation carries over to whole runs. -/
structure DrawRel (Rel : Display → Display → Prop) : Prop where
  rows : ∀ {d e}, Rel d e → d.termRows = e.termRows
  cols : ∀ {d e}, Rel d e → d.termCols = e.termCols
  rows_pos : ∀ {d e}, Rel d e → 0 < d.termRows
  cols_pos : ∀ {d e}, Rel d e → 0 < d.termCols
  notePut : ∀ {d e}, Rel d e → ∀ byte,
    Rel (d.note (.rawPutVisible byte)) (e.note (.rawPutVisible byte))
  noteEmit : ∀ {d e}, Rel d e → ∀ cp,
    Rel (d.note (.emitCodepoint cp)) (e.note (.emitCodepoint cp))
  put : ∀ {d e}, Rel d e → ∀ {row col}, row < d.termRows → col < d.termCols →
    ∀ {byte}, byte < 0x80 → ∀ color,
      Rel (backendPutCell d row col byte color) (backendPutCell e row col byte color)
  clearAll : ∀ {d e}, Rel d e → ∀ color, Rel (backendClearAll d color) (backendClearAll e color)
  scrollUp : ∀ {d e}, Rel d e → ∀ color, Rel (backendScrollUp d color) (backendScrollUp e color)

/-- The bounds of the terminal state that do not depend on the size of the screen. -/
def Term.Sane (t : Term) : Prop :=
  t.ansiParams.length ≤ ansiMaxParams ∧ t.ansiFg ≤ 15 ∧ t.ansiBg ≤ 15 ∧ t.utf8Needed ≤ 3

/-- Two consoles in the same terminal state, on related displays; the cursor is at most `slack`
rows below the screen. The slack is for the moments between a step down and the scroll behind it.
-/
structure SimUpTo (Rel : Display → Display → Prop) (slack : ℕ) (a b : Console) : Prop where
  display : Rel a.toDisplay b.toDisplay
  term : a.toTerm = b.toTerm
  row : a.cursorRow < a.termRows + slack
  col : a.cursorCol < a.termCols
  sane : a.toTerm.Sane

/-- What holds between two consoles before and after every call. -/
abbrev Sim (Rel : Display → Display → Prop) : Console → Console → Prop := SimUpTo Rel 0

variable {Rel : Display → Display → Prop} {slack : ℕ} {a b a' b' : Console}

/-! ## Rules for the pieces of a call -/

theorem SimUpTo.ite {p q : Prop} [Decidable p] [Decidable q] (hpq : p ↔ q)
    (hthen : p → SimUpTo Rel slack a b) (helse : ¬p → SimUpTo Rel slack a' b') :
    SimUpTo Rel slack (if p then a else a') (if q then b else b') := by
  by_cases hp : p
  · rw [if_pos hp, if_pos (hpq.mp hp)]
    exact hthen hp
  · rw [if_neg hp, if_neg (mt hpq.mpr hp)]
    exact helse hp

theorem SimUpTo.update (h : SimUpTo Rel slack a b) {f g : Term → Term} {k : ℕ}
    (hfg : f a.toTerm = g b.toTerm) (hrow : (f a.toTerm).cursorRow < a.termRows + k)
    (hcol : (f a.toTerm).cursorCol < a.termCols) (hsane : (f a.toTerm).Sane) :
    SimUpTo Rel k (a.update f) (b.update g) :=
  ⟨h.display, hfg, hrow, hcol, hsane⟩

/-- `u` follows `t` without a cursor movement: colours and decoders may have changed. -/
structure Term.Stays (t u : Term) : Prop where
  row : u.cursorRow = t.cursorRow
  col : u.cursorCol = t.cursorCol
  sane : u.Sane

theorem Term.Stays.trans {t u v : Term} (h : t.Stays u) (h' : u.Stays v) : t.Stays v :=
  ⟨h'.row.trans h.row, h'.col.trans h.col, h'.sane⟩

theorem Term.Stays.ite {t u v : Term} {p : Prop} [Decidable p] (hthen : p → t.Stays u)
    (helse : ¬p → t.Stays v) : t.Stays (if p then u else v) := by
  by_cases hp : p
  · rw [if_pos hp]
    exact hthen hp
  · rw [if_neg hp]
    exact helse hp

theorem SimUpTo.stay (h : SimUpTo Rel slack a b) {f : Term → Term}
    (hf : a.toTerm.Stays (f a.toTerm)) : SimUpTo Rel slack (a.update f) (b.update f) :=
  h.update (congrArg f h.term) (hf.row ▸ h.row) (hf.col ▸ h.col) hf.sane

theorem SimUpTo.draw (h : SimUpTo Rel slack a b) {f g : Display → Display}
    (hfg : Rel (f a.toDisplay) (g b.toDisplay))
    (hf : (f a.toDisplay).toGeometry = a.toGeometry) :
    SimUpTo Rel slack (a.draw f) (b.draw g) := by
  refine ⟨hfg, h.term, ?_, ?_, h.sane⟩
  · show a.cursorRow < (f a.toDisplay).termRows + slack
    rw [hf]
    exact h.row
  · show a.cursorCol < (f a.toDisplay).termCols
    rw [hf]
    exact h.col

theorem SimUpTo.serial (h : SimUpTo Rel slack a b) (byte : UInt8) :
    SimUpTo Rel slack (serialWriteChar a byte) (serialWriteChar b byte) := by
  rw [serialWriteChar, serialWriteChar]
  split <;> split <;> exact ⟨h.display, h.term, h.row, h.col, h.sane⟩

section

variable (hR : DrawRel Rel)
include hR

theorem SimUpTo.rows (h : SimUpTo Rel slack a b) : a.termRows = b.termRows := hR.rows h.display

theorem SimUpTo.cols (h : SimUpTo Rel slack a b) : a.termCols = b.termCols := hR.cols h.display

/-! ## Drawing at the cursor -/

/-- A put at the cursor, in the current colour. -/
theorem Sim.putAtCursor (h : Sim Rel a b) {byte : UInt8} (hbyte : byte < 0x80) :
    Sim Rel
      (a.draw fun d => backendPutCell d a.cursorRow a.cursorCol byte (currentVgaColor a.toTerm))
      (b.draw fun d => backendPutCell d b.cursorRow b.cursorCol byte (currentVgaColor b.toTerm)) := by
  rw [← h.term]
  exact h.draw (hR.put h.display h.row h.col hbyte _) (backendPutCell_geometry _ _ _ _ _)

/-- Scrolling brings a cursor one row below the screen back onto it. -/
theorem scrollIfNeeded_sim (h : SimUpTo Rel 1 a b) :
    Sim Rel (scrollIfNeeded a) (scrollIfNeeded b) := by
  have hpos := hR.rows_pos h.display
  rw [scrollIfNeeded, scrollIfNeeded]
  refine SimUpTo.ite (by rw [h.term, h.rows hR]) (fun hrow => ?_) (fun _ => ?_)
  · exact ⟨h.display, h.term, hrow, h.col, h.sane⟩
  · have hscroll := hR.scrollUp h.display (currentVgaColor a.toTerm)
    have hgeo := (backendScrollUp_spec a.toDisplay (currentVgaColor a.toTerm) hpos).1
    rw [← h.term]
    refine (h.draw hscroll hgeo).update ?_ ?_ ?_ h.sane
    · rw [← h.rows hR]
      exact congrArg (fun t : Term => { t with cursorRow := a.termRows - 1 }) h.term
    · show a.termRows - 1 < (backendScrollUp a.toDisplay _).termRows + 0
      rw [hgeo]
      omega
    · show a.cursorCol < (backendScrollUp a.toDisplay _).termCols
      rw [hgeo]
      exact h.col

theorem rawNewline_sim (h : Sim Rel a b) : Sim Rel (rawNewline a) (rawNewline b) := by
  refine scrollIfNeeded_sim hR (h.update ?_ ?_ (hR.cols_pos h.display) h.sane)
  · exact congrArg (fun t : Term => { t with cursorCol := 0, cursorRow := t.cursorRow + 1 }) h.term
  · exact Nat.succ_lt_succ h.row

/-- The cursor moves at most one row below the screen. -/
theorem advanceCursor_sim (h : Sim Rel a b) :
    SimUpTo Rel 1 (advanceCursor a) (advanceCursor b) := by
  rw [advanceCursor, advanceCursor]
  have hmoved : a.cursorCol + 1 = b.cursorCol + 1 := by rw [h.term]
  refine SimUpTo.ite ?_ (fun _ => ?_) (fun hcol => ?_)
  · show a.termCols ≤ a.cursorCol + 1 ↔ b.termCols ≤ b.cursorCol + 1
    rw [h.cols hR, hmoved]
  · exact ⟨h.display,
      congrArg (fun t : Term => { t with cursorCol := 0, cursorRow := t.cursorRow + 1 }) h.term,
      Nat.succ_lt_succ h.row, hR.cols_pos h.display, h.sane⟩
  · exact ⟨h.display, congrArg (fun t : Term => { t with cursorCol := t.cursorCol + 1 }) h.term,
      Nat.lt_succ_of_lt h.row, Nat.lt_of_not_le hcol, h.sane⟩

theorem rawPutVisible_sim (h : Sim Rel a b) {byte : UInt8} (hbyte : byte < 0x80) :
    Sim Rel (rawPutVisible a byte) (rawPutVisible b byte) := by
  have hnoted : Sim Rel (a.draw fun d => d.note (.rawPutVisible byte))
      (b.draw fun d => d.note (.rawPutVisible byte)) :=
    h.draw (hR.notePut h.display byte) rfl
  exact scrollIfNeeded_sim hR (advanceCursor_sim hR (hnoted.putAtCursor hR hbyte))

/-- Moving back never leaves the screen. -/
theorem retreatCursor_sim (h : Sim Rel a b) : Sim Rel (retreatCursor a) (retreatCursor b) := by
  rw [retreatCursor, retreatCursor]
  refine SimUpTo.ite (by rw [h.term]) (fun _ => ?_) (fun _ => ?_)
  · exact h.update (by rw [h.term, h.cols hR]) (Nat.sub_lt_of_lt h.row)
      (Nat.sub_lt (hR.cols_pos h.display) Nat.one_pos) h.sane
  · exact h.update (by rw [h.term]) h.row (Nat.sub_lt_of_lt h.col) h.sane

theorem consoleBackspace_sim (h : Sim Rel a b) :
    Sim Rel (consoleBackspace a) (consoleBackspace b) := by
  rw [consoleBackspace, consoleBackspace]
  refine SimUpTo.ite (by rw [h.term]) (fun _ => h) (fun _ => ?_)
  exact (retreatCursor_sim hR h).putAtCursor hR (by decide)

/-! ## Erasing -/

/-- Blanking part of a row that is on the screen. -/
theorem DrawRel.clearRange {d e : Display} (h : Rel d e) {row first last : ℕ}
    (hrow : row < d.termRows) (hlast : last ≤ d.termCols) (color : UInt8) :
    Rel (forRange first last (fun d x => backendPutCell d row x 0x20 color) d)
        (forRange first last (fun d x => backendPutCell d row x 0x20 color) e) ∧
      (forRange first last (fun d x => backendPutCell d row x 0x20 color) d).toGeometry =
        d.toGeometry := by
  refine forRange_rel (fun t u => Rel t u ∧ t.toGeometry = d.toGeometry) ⟨h, rfl⟩ ?_
  rintro x t u - hx ⟨hrel, hg⟩
  have hrow' : row < t.termRows := by rwa [hg]
  have hx' : x < t.termCols := by
    rw [hg]
    exact hx.trans_le hlast
  exact ⟨hR.put hrel hrow' hx' (by decide) color, (backendPutCell_geometry _ _ _ _ _).trans hg⟩

theorem clearLineRange_sim (h : Sim Rel a b) (row colStart colEnd : ℕ) :
    Sim Rel (clearLineRange a row colStart colEnd) (clearLineRange b row colStart colEnd) := by
  have hcols := hR.cols_pos h.display
  rw [clearLineRange, clearLineRange]
  refine SimUpTo.ite (by rw [h.rows hR]) (fun _ => h) (fun hrow => ?_)
  rw [← h.cols hR, ← h.term]
  refine SimUpTo.ite Iff.rfl (fun _ => h) (fun _ => ?_)
  -- The last column to clear is clamped to the last one there is.
  have hlast : (if a.termCols ≤ colEnd then a.termCols - 1 else colEnd) + 1 ≤ a.termCols := by
    split <;> omega
  obtain ⟨hrel, hg⟩ := hR.clearRange h.display (Nat.lt_of_not_le hrow) hlast _
  exact h.draw hrel hg

/-- What `console_clear` leaves of the terminal state. -/
def Term.cleared : Term :=
  { cursorRow := 0, cursorCol := 0, savedCursorRow := 0, savedCursorCol := 0
    ansiFg := 15, ansiBg := 0, ansiParserState := .ground
    ansiParams := [], ansiParamCurrent := 0, ansiParamActive := false
    utf8Codepoint := 0, utf8Needed := 0, utf8Total := 0 }

omit hR in
theorem consoleClear_toTerm (c : Console) : (consoleClear c).toTerm = Term.cleared := rfl

omit hR in
theorem consoleClear_toDisplay (c : Console) :
    (consoleClear c).toDisplay = backendClearAll c.toDisplay 0x0F := by
  have hcolor : currentVgaColor Term.cleared = 0x0F := by decide
  rw [← hcolor]
  rfl

/-- Clearing brings any consoles in step whose displays it makes related. -/
theorem consoleClear_sim_of_cleared
    (h : Rel (backendClearAll a.toDisplay 0x0F) (backendClearAll b.toDisplay 0x0F)) :
    Sim Rel (consoleClear a) (consoleClear b) := by
  refine ⟨?_, rfl, ?_, ?_, ?_⟩
  · rw [consoleClear_toDisplay, consoleClear_toDisplay]
    exact h
  · rw [consoleClear_toTerm, consoleClear_toDisplay]
    exact hR.rows_pos h
  · rw [consoleClear_toTerm, consoleClear_toDisplay]
    exact hR.cols_pos h
  · rw [consoleClear_toTerm]
    exact ⟨by decide, by decide, by decide, by decide⟩

theorem consoleClear_sim (h : Rel a.toDisplay b.toDisplay) :
    Sim Rel (consoleClear a) (consoleClear b) :=
  consoleClear_sim_of_cleared hR (hR.clearAll h 0x0F)

theorem ansiEraseLine_sim (h : Sim Rel a b) : Sim Rel (ansiEraseLine a) (ansiEraseLine b) := by
  rw [ansiEraseLine, ansiEraseLine]
  rw [← h.term, ← h.cols hR]
  refine SimUpTo.ite Iff.rfl (fun _ => clearLineRange_sim hR h _ _ _) (fun _ => ?_)
  refine SimUpTo.ite Iff.rfl (fun _ => clearLineRange_sim hR h _ _ _) (fun _ => ?_)
  exact SimUpTo.ite Iff.rfl (fun _ => clearLineRange_sim hR h _ _ _) (fun _ => h)

/-- A loop that blanks whole rows. -/
theorem clearRows_sim (h : Sim Rel a b) (first last : ℕ) :
    Sim Rel (forRange first last (fun c y => clearLineRange c y 0 (c.termCols - 1)) a)
      (forRange first last (fun c y => clearLineRange c y 0 (c.termCols - 1)) b) := by
  refine forRange_rel (Sim Rel) h fun y c d _ _ hcd => ?_
  rw [← hcd.cols hR]
  exact clearLineRange_sim hR hcd y 0 _

theorem ansiEraseDisplay_sim (h : Sim Rel a b) :
    Sim Rel (ansiEraseDisplay a) (ansiEraseDisplay b) := by
  rw [ansiEraseDisplay, ansiEraseDisplay]
  refine SimUpTo.ite (by rw [h.term]) (fun _ => consoleClear_sim hR h.display) (fun _ => ?_)
  refine SimUpTo.ite (by rw [h.term]) (fun _ => ?_) (fun _ => ?_)
  · have hline := clearLineRange_sim hR h a.cursorRow a.cursorCol (a.termCols - 1)
    rw [← h.term, ← h.cols hR]
    dsimp only
    rw [← hline.term, ← hline.rows hR]
    exact clearRows_sim hR hline _ _
  refine SimUpTo.ite (by rw [h.term]) (fun _ => ?_) (fun _ => h)
  have hrows := clearRows_sim hR h 0 a.cursorRow
  rw [← h.term]
  dsimp only
  rw [← hrows.term]
  exact clearLineRange_sim hR hrows _ _ _

end

/-! ## Colours and parameters -/

theorem uint8_sub_le {v k bound : UInt8} (hk : k ≤ v) (h : v ≤ bound) : v - k ≤ bound := by
  rw [UInt8.le_iff_toNat_le, UInt8.toNat_sub_of_le _ _ hk]
  exact (Nat.sub_le _ _).trans (UInt8.le_iff_toNat_le.mp h)

theorem uint8_add_eight_le {v : UInt8} (h : v < 8) : v + 8 ≤ 15 := by
  have hv : v.toNat < 8 := UInt8.lt_iff_toNat_lt.mp h
  rw [UInt8.le_iff_toNat_le, UInt8.toNat_add]
  show (v.toNat + 8) % 2 ^ 8 ≤ 15
  omega

theorem ansiBaseToVga_lt (index : UInt8) : ansiBaseToVga index < 8 := by
  have hall : ([0, 4, 2, 6, 1, 5, 3, 7] : List UInt8).all (· < 8) = true := by decide
  rw [ansiBaseToVga]
  rw [List.getD_eq_getElem?_getD]
  rcases h : ([0, 4, 2, 6, 1, 5, 3, 7] : List UInt8)[index.toNat]? with - | v
  · decide
  · exact of_decide_eq_true (List.all_eq_true.mp hall v (List.mem_of_getElem? h))

theorem ansiColorToVga_le (ansiColor : UInt8) (bright : Bool) :
    ansiColorToVga ansiColor bright ≤ 15 := by
  have h := ansiBaseToVga_lt (ansiColor &&& 0x7)
  rw [ansiColorToVga]
  split
  · exact uint8_add_eight_le h
  · exact UInt8.le_of_lt (UInt8.lt_trans h (by decide))

/-- Every code leaves both colours within the palette. -/
theorem ansiSgrApply_stays {t : Term} (h : t.Sane) (code : ℤ) : t.Stays (ansiSgrApply t code) := by
  obtain ⟨hparams, hfg, hbg, hutf8⟩ := h
  have hsame : t.Stays t := ⟨rfl, rfl, hparams, hfg, hbg, hutf8⟩
  have hsetFg : ∀ v : UInt8, v ≤ 15 → t.Stays { t with ansiFg := v } :=
    fun v hv => ⟨rfl, rfl, hparams, hv, hbg, hutf8⟩
  have hsetBg : ∀ v : UInt8, v ≤ 15 → t.Stays { t with ansiBg := v } :=
    fun v hv => ⟨rfl, rfl, hparams, hfg, hv, hutf8⟩
  have hdefault : (15 : UInt8) ≤ 15 ∧ (0 : UInt8) ≤ 15 := by decide
  rw [ansiSgrApply]
  refine .ite (fun _ => ?_) fun _ => .ite (fun _ => ?_) fun _ => .ite (fun _ => ?_) fun _ => ?_
  · exact ⟨rfl, rfl, hparams, hdefault.1, hdefault.2, hutf8⟩
  · exact .ite (fun hlow => hsetFg _ (uint8_add_eight_le hlow)) fun _ => hsame
  · exact .ite (fun hhigh => hsetFg _ (uint8_sub_le hhigh hfg)) fun _ => hsame
  refine .ite (fun _ => hsetFg _ (ansiColorToVga_le _ _)) fun _ => ?_
  refine .ite (fun _ => hsetFg _ (ansiColorToVga_le _ _)) fun _ => ?_
  refine .ite (fun _ => hsetFg _ hdefault.1) fun _ => ?_
  refine .ite (fun _ => hsetBg _ (ansiColorToVga_le _ _)) fun _ => ?_
  refine .ite (fun _ => hsetBg _ (ansiColorToVga_le _ _)) fun _ => ?_
  exact .ite (fun _ => hsetBg _ hdefault.2) fun _ => hsame

theorem foldl_ansiSgrApply_stays (codes : List ℤ) :
    ∀ {t : Term}, t.Sane → t.Stays (codes.foldl ansiSgrApply t) := by
  induction codes with
  | nil => exact fun h => ⟨rfl, rfl, h⟩
  | cons code codes ih =>
    intro t h
    have hstep := ansiSgrApply_stays h code
    exact hstep.trans (ih hstep.sane)

/-- A ninth parameter is dropped. -/
theorem ansiPushCurrentParam_stays {t : Term} (h : t.Sane) : t.Stays (ansiPushCurrentParam t) := by
  rw [ansiPushCurrentParam]
  split
  · exact ⟨rfl, rfl, h⟩
  · dsimp only
    split
    · refine ⟨rfl, rfl, ?_, h.2⟩
      rw [List.length_append]
      assumption
    · exact ⟨rfl, rfl, h⟩

/-! ## Control sequences -/

section

variable (hR : DrawRel Rel)
include hR

/-- A clamped position is on the screen. -/
theorem Sim.moveClamped (h : Sim Rel a b) (row col : ℕ) :
    Sim Rel
      (a.update fun t =>
        { t with
          cursorRow := if a.termRows ≤ row then a.termRows - 1 else row
          cursorCol := if a.termCols ≤ col then a.termCols - 1 else col })
      (b.update fun t =>
        { t with
          cursorRow := if b.termRows ≤ row then b.termRows - 1 else row
          cursorCol := if b.termCols ≤ col then b.termCols - 1 else col }) := by
  have hrows := hR.rows_pos h.display
  have hcols := hR.cols_pos h.display
  refine h.update ?_ ?_ ?_ h.sane
  · rw [h.term, h.rows hR, h.cols hR]
  · dsimp only
    split <;> omega
  · dsimp only
    split <;> omega

theorem ansiCursorPosition_sim (h : Sim Rel a b) :
    Sim Rel (ansiCursorPosition a) (ansiCursorPosition b) := by
  rw [ansiCursorPosition, ansiCursorPosition, ← h.term]
  exact h.moveClamped hR _ _

theorem ansiRestoreCursor_sim (h : Sim Rel a b) :
    Sim Rel (ansiRestoreCursor a) (ansiRestoreCursor b) := by
  rw [ansiRestoreCursor, ansiRestoreCursor, ← h.term]
  exact h.moveClamped hR _ _

/-- The final byte of a control sequence. Which branch is taken depends on the parser only, which
is the same on both sides, and each branch draws with functions that keep the relation. -/
theorem ansiExecuteCsi_sim (h : Sim Rel a b) (final : UInt8) :
    Sim Rel (ansiExecuteCsi a final) (ansiExecuteCsi b final) := by
  have hrow := h.row
  have hcol := h.col
  have hrows := hR.rows_pos h.display
  have hcols := hR.cols_pos h.display
  rw [ansiExecuteCsi, ansiExecuteCsi]
  refine SimUpTo.ite Iff.rfl (fun _ => ?_) (fun _ => ?_)
  · refine SimUpTo.ite (by rw [h.term]) (fun _ => ?_) (fun _ => ?_)
    · exact h.stay (ansiSgrApply_stays h.sane 0)
    · exact h.stay (foldl_ansiSgrApply_stays _ h.sane)
  refine SimUpTo.ite Iff.rfl (fun _ => ansiCursorPosition_sim hR h) (fun _ => ?_)
  rw [← h.term, ← h.rows hR, ← h.cols hR]
  dsimp only
  generalize toSizeT _ = n
  -- `A` and `D` stop at 0, `B` and `C` at the last row and column.
  refine SimUpTo.ite Iff.rfl (fun _ => ?_) (fun _ => ?_)
  · refine h.update (by rw [h.term]) ?_ hcol h.sane
    dsimp only
    split <;> omega
  refine SimUpTo.ite Iff.rfl (fun _ => ?_) (fun _ => ?_)
  · refine h.update (by rw [h.term]) ?_ hcol h.sane
    dsimp only
    split <;> omega
  refine SimUpTo.ite Iff.rfl (fun _ => ?_) (fun _ => ?_)
  · refine h.update (by rw [h.term]) hrow ?_ h.sane
    dsimp only
    split <;> omega
  refine SimUpTo.ite Iff.rfl (fun _ => ?_) (fun _ => ?_)
  · refine h.update (by rw [h.term]) hrow ?_ h.sane
    dsimp only
    split <;> omega
  refine SimUpTo.ite Iff.rfl (fun _ => ansiEraseDisplay_sim hR h) (fun _ => ?_)
  refine SimUpTo.ite Iff.rfl (fun _ => ansiEraseLine_sim hR h) (fun _ => ?_)
  refine SimUpTo.ite Iff.rfl (fun _ => h.stay ⟨rfl, rfl, h.sane⟩) (fun _ => ?_)
  exact SimUpTo.ite Iff.rfl (fun _ => ansiRestoreCursor_sim hR h) (fun _ => h)

/-! ## Bytes -/

omit hR in
theorem toUInt8_lt_of_ascii {cp : UInt32} (h : cp ≤ 0x7F) : cp.toUInt8 < 0x80 := by
  have hcp : cp.toNat ≤ 0x7F := UInt32.le_iff_toNat_le.mp h
  rw [UInt8.lt_iff_toNat_lt, UInt32.toNat_toUInt8]
  show cp.toNat % 2 ^ 8 < 0x80
  omega

/-- Whatever the code point, the character drawn is ASCII. -/
theorem consoleEmitCodepoint_sim (h : Sim Rel a b) (cp : UInt32) :
    Sim Rel (consoleEmitCodepoint a cp) (consoleEmitCodepoint b cp) := by
  have hnoted : Sim Rel (a.draw fun d => d.note (.emitCodepoint cp))
      (b.draw fun d => d.note (.emitCodepoint cp)) :=
    h.draw (hR.noteEmit h.display cp) rfl
  rw [consoleEmitCodepoint, consoleEmitCodepoint]
  refine SimUpTo.ite Iff.rfl (fun _ => hnoted) (fun _ => ?_)
  refine SimUpTo.ite Iff.rfl (fun hascii => ?_) (fun _ => ?_)
  · exact rawPutVisible_sim hR hnoted (toUInt8_lt_of_ascii hascii)
  · exact rawPutVisible_sim hR hnoted (by decide)

/-- The number of outstanding bytes is at most 3 and only counts down. -/
theorem consoleEmitUtf8Byte_sim (h : Sim Rel a b) (byte : UInt8) :
    Sim Rel (consoleEmitUtf8Byte a byte) (consoleEmitUtf8Byte b byte) := by
  obtain ⟨hparams, hfg, hbg, hutf8⟩ := h.sane
  have hlead : (1 : UInt8) ≤ 3 ∧ (2 : UInt8) ≤ 3 ∧ (0 : UInt8) ≤ 3 := by decide
  rw [consoleEmitUtf8Byte, consoleEmitUtf8Byte]
  refine SimUpTo.ite (by rw [h.term]) (fun _ => ?_) (fun hne => ?_)
  · refine SimUpTo.ite Iff.rfl (fun _ => ?_) (fun _ => ?_)
    · exact h.stay ⟨rfl, rfl, hparams, hfg, hbg, hlead.1⟩
    refine SimUpTo.ite Iff.rfl (fun _ => ?_) (fun _ => ?_)
    · exact h.stay ⟨rfl, rfl, hparams, hfg, hbg, hlead.2.1⟩
    refine SimUpTo.ite Iff.rfl (fun _ => ?_) (fun _ => ?_)
    · exact h.stay ⟨rfl, rfl, hparams, hfg, hbg, UInt8.le_refl 3⟩
    · exact consoleEmitCodepoint_sim hR h 0x3F
  refine SimUpTo.ite Iff.rfl (fun _ => ?_) (fun _ => ?_)
  · exact consoleEmitCodepoint_sim hR (h.stay ⟨rfl, rfl, hparams, hfg, hbg, hlead.2.2⟩) 0x3F
  have hpos : 1 ≤ a.utf8Needed := by
    rw [UInt8.le_iff_toNat_le]
    exact UInt8.lt_iff_toNat_lt.mp (UInt8.pos_iff_ne_zero.mpr hne)
  have hnext := h.stay (f := fun t =>
    { t with
      utf8Codepoint := (t.utf8Codepoint <<< 6) ||| (byte &&& 0x3F).toUInt32
      utf8Needed := t.utf8Needed - 1 }) ⟨rfl, rfl, hparams, hfg, hbg, uint8_sub_le hpos hutf8⟩
  refine SimUpTo.ite (by rw [hnext.term]) (fun _ => ?_) (fun _ => hnext)
  rw [← hnext.term]
  have hemit := fun (valid : Bool) cp => SimUpTo.ite (Iff.refl (valid = true))
    (fun _ => consoleEmitCodepoint_sim hR hnext cp)
    (fun _ => consoleEmitCodepoint_sim hR hnext 0x3F)
  exact (hemit _ _).stay ⟨rfl, rfl, (hemit _ _).sane⟩

theorem consoleHandleGroundByte_sim (h : Sim Rel a b) (byte : UInt8) :
    Sim Rel (consoleHandleGroundByte a byte) (consoleHandleGroundByte b byte) := by
  rw [consoleHandleGroundByte, consoleHandleGroundByte]
  refine SimUpTo.ite Iff.rfl (fun _ => h.stay ⟨rfl, rfl, h.sane⟩) (fun _ => ?_)
  refine SimUpTo.ite Iff.rfl (fun _ => rawNewline_sim hR h) (fun _ => ?_)
  refine SimUpTo.ite Iff.rfl (fun _ => ?_) (fun _ => ?_)
  · exact h.update (by rw [h.term]) h.row (hR.cols_pos h.display) h.sane
  refine SimUpTo.ite Iff.rfl (fun _ => consoleBackspace_sim hR h) (fun _ => ?_)
  refine SimUpTo.ite Iff.rfl (fun _ => ?_) (fun _ => ?_)
  · rw [← h.term]
    exact forRange_rel (Sim Rel) h fun _ c d _ _ hcd => rawPutVisible_sim hR hcd (by decide)
  refine SimUpTo.ite Iff.rfl (fun _ => h) (fun _ => ?_)
  refine SimUpTo.ite Iff.rfl (fun hascii => rawPutVisible_sim hR h hascii) (fun _ => ?_)
  exact consoleEmitUtf8Byte_sim hR h byte

theorem consoleHandleCsiByte_sim (h : Sim Rel a b) (byte : UInt8) :
    Sim Rel (consoleHandleCsiByte a byte) (consoleHandleCsiByte b byte) := by
  have hpush := h.stay (ansiPushCurrentParam_stays h.sane)
  rw [consoleHandleCsiByte, consoleHandleCsiByte]
  refine SimUpTo.ite Iff.rfl (fun _ => h.stay ⟨rfl, rfl, h.sane⟩) (fun _ => ?_)
  refine SimUpTo.ite Iff.rfl (fun _ => hpush) (fun _ => ?_)
  refine SimUpTo.ite Iff.rfl (fun _ => ?_) (fun _ => h.stay ⟨rfl, rfl, h.sane⟩)
  have hcsi := ansiExecuteCsi_sim hR hpush byte
  exact hcsi.stay ⟨rfl, rfl, Nat.zero_le _, hcsi.sane.2⟩

/-- A byte keeps two consoles in step. -/
theorem consolePutc_sim (h : Sim Rel a b) (byte : UInt8) :
    Sim Rel (consolePutc a byte) (consolePutc b byte) := by
  have hserial : Sim Rel
      (serialWriteChar (if byte = 0x0A then serialWriteChar a 0x0D else a) byte)
      (serialWriteChar (if byte = 0x0A then serialWriteChar b 0x0D else b) byte) :=
    (SimUpTo.ite Iff.rfl (fun _ => h.serial 0x0D) (fun _ => h)).serial byte
  rw [consolePutc, consolePutc]
  rw [← hserial.term]
  cases (serialWriteChar (if byte = 0x0A then serialWriteChar a 0x0D else a) byte).ansiParserState
    with
  | ground => exact consoleHandleGroundByte_sim hR hserial byte
  | esc =>
    refine SimUpTo.ite Iff.rfl (fun _ => ?_) (fun _ => ?_)
    · exact hserial.stay ⟨rfl, rfl, Nat.zero_le _, hserial.sane.2⟩
    · exact consoleHandleGroundByte_sim hR (hserial.stay ⟨rfl, rfl, hserial.sane⟩) byte
  | csi => exact consoleHandleCsiByte_sim hR hserial byte

end

/-! ## Calls -/

/-- A call of the console's interface that leaves its display in place. Numbers and strings are
written byte by byte, so they are sequences of these. -/
inductive ConsoleCall : Type where
  /-- `console_putc` -/
  | putc (byte : UInt8) : ConsoleCall
  /-- `console_clear` -/
  | clear : ConsoleCall
  /-- `console_backspace` -/
  | backspace : ConsoleCall
  deriving DecidableEq, Repr

/-- The effect of a call on the console. -/
def consoleCall (c : Console) : ConsoleCall → Console
  | .putc byte => consolePutc c byte
  | .clear => consoleClear c
  | .backspace => consoleBackspace c

theorem consoleCall_sim (hR : DrawRel Rel) (h : Sim Rel a b) (call : ConsoleCall) :
    Sim Rel (consoleCall a call) (consoleCall b call) := by
  cases call with
  | putc byte => exact consolePutc_sim hR h byte
  | clear => exact consoleClear_sim hR h.display
  | backspace => exact consoleBackspace_sim hR h

/-- Consoles in step stay in step. -/
theorem consoleCalls_sim (hR : DrawRel Rel) (calls : List ConsoleCall) :
    ∀ {a b : Console}, Sim Rel a b →
      Sim Rel (calls.foldl consoleCall a) (calls.foldl consoleCall b) := by
  induction calls with
  | nil => exact fun h => h
  | cons call calls ih => exact fun h => ih (consoleCall_sim hR h call)

end WaluOs
