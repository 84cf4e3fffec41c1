import WaluOs.ConsoleSim

/-!
# The console stays within its arrays

Every access of a cell is recorded in the trace. What has to be shown of the
drawing functions is that they only access cells that exist, for the sizes the
console can select; that they are only called for positions on the screen is part
of `Sim`.
-/

namespace WaluOs

open Loops

/-- A recorded access lies inside its array, and no put was discarded. -/
def ConsoleEvent.Inside : ConsoleEvent → Prop
  | .vgaCell i => i < vgaWidth * vgaHeight
  | .fbCell row col => row < fbMaxRows ∧ col < fbMaxCols
  | .fbCellColor row col => row < fbMaxRows ∧ col < fbMaxCols
  | .discarded _ _ => False
  | .pixel _ => True
  | .rawPutVisible _ => True
  | .emitCodepoint _ => True

/-- The displays the console can select. -/
def Geometry.Selectable (g : Geometry) : Prop :=
  match g.backend with
  | .vga => g.termCols = vgaWidth ∧ g.termRows = vgaHeight
  | .fb => (1 ≤ g.termCols ∧ g.termCols ≤ fbMaxCols) ∧ 1 ≤ g.termRows ∧ g.termRows ≤ fbMaxRows

/-- `d` has geometry `g`, and all its accesses were inside. Since the trace keeps every access,
this is about the whole run that led to `d`. -/
structure Within (g : Geometry) (d : Display) : Prop where
  geometry : d.toGeometry = g
  inside : ∀ e ∈ d.trace, e.Inside

variable {g : Geometry} {d : Display}

theorem Geometry.Selectable.rows_pos (hg : g.Selectable) : 0 < g.termRows := by
  rw [Geometry.Selectable] at hg
  simp only [vgaWidth, vgaHeight] at hg
  split at hg <;> omega

theorem Geometry.Selectable.cols_pos (hg : g.Selectable) : 0 < g.termCols := by
  rw [Geometry.Selectable] at hg
  simp only [vgaWidth, vgaHeight] at hg
  split at hg <;> omega

/-- A position on a framebuffer console is inside the cell arrays. -/
theorem Geometry.Selectable.fb (hg : g.Selectable) (hb : g.backend = .fb) {row col : ℕ}
    (hrow : row < g.termRows) (hcol : col < g.termCols) : row < fbMaxRows ∧ col < fbMaxCols := by
  rw [Geometry.Selectable, hb] at hg
  omega

/-- A position on a VGA console is inside VGA memory. -/
theorem Geometry.Selectable.vga (hg : g.Selectable) (hb : g.backend = .vga) {row col : ℕ}
    (hrow : row < g.termRows) (hcol : col < g.termCols) :
    row * g.termCols + col < vgaWidth * vgaHeight := by
  rw [Geometry.Selectable, hb] at hg
  obtain ⟨hc, hr⟩ := hg
  rw [hc] at hcol ⊢
  simp only [vgaWidth, vgaHeight] at *
  omega

/-! ## Accesses of the pieces -/

theorem Within.note (h : Within g d) {e : ConsoleEvent} (he : e.Inside) : Within g (d.note e) := by
  refine ⟨h.geometry, fun e' he' => ?_⟩
  rcases List.mem_append.mp he' with hold | hnew
  · exact h.inside e' hold
  · rw [List.mem_singleton.mp hnew]
    exact he

theorem Within.fbPlot (h : Within g d) (x y : ℕ) (rgb : UInt32) :
    Within g (fbPlot d x y rgb) := by
  rw [WaluOs.fbPlot]
  split
  · exact h
  · have hn := h.note (e := .pixel ((y * d.fbPitchPixels + x) % 2 ^ 32)) trivial
    exact ⟨hn.geometry, hn.inside⟩

theorem Within.fbDrawCell (h : Within g d) (row col : ℕ) (c color : UInt8) :
    Within g (fbDrawCell d row col c color) := by
  rw [WaluOs.fbDrawCell]
  split
  · exact h
  · dsimp only
    split
    · exact h
    · refine forRange_invariant h fun gy t _ _ ht => ?_
      exact forRange_invariant ht fun gx u _ _ hu => hu.fbPlot _ _ _

theorem Within.vgaStore (h : Within g d) {i : ℕ} (hi : i < vgaWidth * vgaHeight)
    (value : UInt16) : Within g (vgaStore d i value) := by
  have hn := h.note (e := .vgaCell i) hi
  exact ⟨hn.geometry, hn.inside⟩

theorem Within.fbStoreCell (h : Within g d) {row col : ℕ}
    (hpos : row < fbMaxRows ∧ col < fbMaxCols) (c : UInt8) :
    Within g (fbStoreCell d row col c) := by
  have hn := h.note (e := .fbCell row col) hpos
  exact ⟨hn.geometry, hn.inside⟩

theorem Within.fbStoreColor (h : Within g d) {row col : ℕ}
    (hpos : row < fbMaxRows ∧ col < fbMaxCols) (color : UInt8) :
    Within g (fbStoreColor d row col color) := by
  have hn := h.note (e := .fbCellColor row col) hpos
  exact ⟨hn.geometry, hn.inside⟩

/-- A loop over the columns, whose bound is read from the display. -/
theorem Within.forCols {store : Display → ℕ → Display} (h : Within g d)
    (hstore : ∀ t x, x < g.termCols → Within g t → Within g (store t x)) :
    Within g (forRange 0 d.termCols store d) := by
  rw [show d.termCols = g.termCols from congrArg Geometry.termCols h.geometry]
  exact forRange_invariant h fun x t _ hx ht => hstore t x hx ht

/-- A loop over rows, whose bound is read from the display. -/
theorem Within.forRows (first : ℕ) {body : Display → ℕ → Display} (h : Within g d)
    (hbody : ∀ t y, first ≤ y → y < g.termRows → Within g t → Within g (body t y)) :
    Within g (forRange first d.termRows body d) := by
  rw [show d.termRows = g.termRows from congrArg Geometry.termRows h.geometry]
  exact forRange_invariant h fun y t hy hlt ht => hbody t y hy hlt ht

/-! ## Accesses of the drawing functions -/

theorem Within.fbRedrawFull (h : Within g d) (hg : g.Selectable) (hb : g.backend = .fb) :
    Within g (fbRedrawFull d) := by
  refine h.forRows 0 fun t y _ hy ht => ht.forCols fun u x hx hu => ?_
  have hpos := hg.fb hb hy hx
  exact ((hu.note (e := .fbCell y x) hpos).note (e := .fbCellColor y x) hpos).fbDrawCell y x _ _

theorem Within.backendPutCell (h : Within g d) (hg : g.Selectable) {row col : ℕ}
    (hrow : row < g.termRows) (hcol : col < g.termCols) (c color : UInt8) :
    Within g (backendPutCell d row col c color) := by
  obtain rfl := h.geometry
  rw [WaluOs.backendPutCell]
  rw [if_neg (by omega)]
  cases hb : d.backend with
  | vga => exact h.vgaStore (hg.vga hb hrow hcol) _
  | fb =>
    have hpos := hg.fb hb hrow hcol
    exact ((h.fbStoreCell hpos c).fbStoreColor hpos color).fbDrawCell row col c color

theorem Within.backendClearAll (h : Within g d) (hg : g.Selectable) (color : UInt8) :
    Within g (backendClearAll d color) := by
  rw [WaluOs.backendClearAll]
  have hbg : d.backend = g.backend := congrArg Geometry.backend h.geometry
  cases hb : d.backend with
  | vga =>
    refine h.forRows 0 fun t y _ hy ht => ht.forCols fun u x hx hu => hu.vgaStore ?_ _
    rw [show u.termCols = g.termCols from congrArg Geometry.termCols hu.geometry]
    exact hg.vga (hbg.symm.trans hb) hy hx
  | fb =>
    have hbfb := hbg.symm.trans hb
    refine Within.fbRedrawFull ?_ hg hbfb
    refine h.forRows 0 fun t y _ hy ht => ht.forCols fun u x hx hu => ?_
    have hpos := hg.fb hbfb hy hx
    exact (hu.fbStoreCell hpos _).fbStoreColor hpos color

/-- Scrolling. It copies each row to the one above, on either backend, and blanks the last one. -/
theorem Within.backendScrollUp (h : Within g d) (hg : g.Selectable) (color : UInt8) :
    Within g (backendScrollUp d color) := by
  rw [WaluOs.backendScrollUp]
  have hbg : d.backend = g.backend := congrArg Geometry.backend h.geometry
  have hrows := hg.rows_pos
  cases hb : d.backend with
  | vga =>
    have hbvga := hbg.symm.trans hb
    refine Within.forCols (h.forRows 1 fun t y hy hlt ht => ht.forCols fun u x hx hu => ?_)
      fun t x hx ht => ht.vgaStore ?_ _
    · -- A row is read and the one above it is written.
      rw [vgaCopyCell]
      rw [hu.geometry]
      exact (hu.note (e := .vgaCell _) (hg.vga hbvga hlt hx)).vgaStore
        (hg.vga hbvga (by omega) hx) _
    · rw [ht.geometry]
      exact hg.vga hbvga (Nat.sub_lt hrows Nat.one_pos) hx
  | fb =>
    have hbfb := hbg.symm.trans hb
    refine Within.fbRedrawFull ?_ hg hbfb
    refine Within.forCols (h.forRows 1 fun t y hy hlt ht => ?_) fun t x hx ht => ?_
    · have habove : y - 1 < g.termRows := by omega
      have hcells : Within g (fbCopyCells t y) := ht.forCols fun u x hx hu =>
        (hu.note (e := .fbCell y x) (hg.fb hbfb hlt hx)).fbStoreCell (hg.fb hbfb habove hx) _
      exact hcells.forCols fun u x hx hu =>
        (hu.note (e := .fbCellColor y x) (hg.fb hbfb hlt hx)).fbStoreColor
          (hg.fb hbfb habove hx) _
    · have hlast : t.termRows - 1 < g.termRows := by
        rw [ht.geometry]
        exact Nat.sub_lt hrows Nat.one_pos
      have hpos := hg.fb hbfb hlast hx
      exact (ht.fbStoreCell hpos _).fbStoreColor hpos color

/-- One console, on a display it can select, all of whose accesses were inside. It is a relation
only so that it can be carried by the simulation; both sides are the same. -/
structure Bounded (d e : Display) : Prop where
  same : d = e
  selectable : d.toGeometry.Selectable
  inside : ∀ ev ∈ d.trace, ev.Inside

theorem Bounded.of_within (h : Within g d) (hg : g.Selectable) : Bounded d d :=
  ⟨rfl, h.geometry ▸ hg, h.inside⟩

theorem bounded_drawRel : DrawRel Bounded where
  rows := fun h => by rw [h.same]
  cols := fun h => by rw [h.same]
  rows_pos := fun h => h.selectable.rows_pos
  cols_pos := fun h => h.selectable.cols_pos
  notePut := by
    rintro d e ⟨rfl, hg, hin⟩ byte
    exact .of_within (Within.note ⟨rfl, hin⟩ trivial) hg
  noteEmit := by
    rintro d e ⟨rfl, hg, hin⟩ cp
    exact .of_within (Within.note ⟨rfl, hin⟩ trivial) hg
  put := by
    rintro d e ⟨rfl, hg, hin⟩ row col hrow hcol byte - color
    exact .of_within (Within.backendPutCell ⟨rfl, hin⟩ hg hrow hcol byte color) hg
  clearAll := by
    rintro d e ⟨rfl, hg, hin⟩ color
    exact .of_within (Within.backendClearAll ⟨rfl, hin⟩ hg color) hg
  scrollUp := by
    rintro d e ⟨rfl, hg, hin⟩ color
    exact .of_within (Within.backendScrollUp ⟨rfl, hin⟩ hg color) hg

/-! ## A change of display -/

/-- The geometry a framebuffer description selects. -/
def VideoFramebufferInfo.geometry (fb : VideoFramebufferInfo) : Geometry where
  backend := .fb
  termCols := min (fb.width.toNat / glyphWidth) fbMaxCols
  termRows := min (fb.height.toNat / glyphHeight) fbMaxRows
  fbMemory := fb.physAddr.toNat
  fbWidth := fb.width.toNat
  fbHeight := fb.height.toNat
  fbPitchPixels := fb.pitch.toNat / 4

/-- What `console_enable_framebuffer` checks. It does not compare the width with the pitch, and it
does not look at the address or the size. -/
structure VideoFramebufferInfo.Accepted (fb : VideoFramebufferInfo) : Prop where
  present : fb.present = true
  mapped : fb.mapped = true
  type : fb.type = 1
  bpp : fb.bpp = 32
  width : glyphWidth ≤ fb.width.toNat
  height : glyphHeight ≤ fb.height.toNat
  pitch : 4 ≤ fb.pitch
  aligned : fb.pitch % 4 = 0

/-- A framebuffer is refused and nothing changes, or it is accepted and the console
is cleared on it. -/
theorem consoleEnableFramebuffer_cases (c : Console) (fb : VideoFramebufferInfo) :
    consoleEnableFramebuffer c fb = (c, false) ∨
      fb.Accepted ∧
        consoleEnableFramebuffer c fb = (consoleClear { c with toGeometry := fb.geometry }, true) := by
  rw [consoleEnableFramebuffer]
  split
  · exact .inl rfl
  · rename_i haccept
    simp only [Bool.not_eq_true', not_or, Bool.not_eq_false, ne_eq, Decidable.not_not,
      Nat.not_lt, UInt32.not_lt] at haccept
    obtain ⟨hpresent, hmapped, htype, hbpp, hwidth, hheight, hpitch, haligned⟩ := haccept
    have hcols : (if fbMaxCols < fb.width.toNat / glyphWidth then fbMaxCols
        else fb.width.toNat / glyphWidth) = fb.geometry.termCols := by
      simp only [VideoFramebufferInfo.geometry, fbMaxCols]
      split <;> omega
    have hrows : (if fbMaxRows < fb.height.toNat / glyphHeight then fbMaxRows
        else fb.height.toNat / glyphHeight) = fb.geometry.termRows := by
      simp only [VideoFramebufferInfo.geometry, fbMaxRows]
      split <;> omega
    -- The last check can no longer fail.
    have hpos : ¬(fb.geometry.termCols = 0 ∨ fb.geometry.termRows = 0) := by
      simp only [VideoFramebufferInfo.geometry, fbMaxCols, fbMaxRows, glyphWidth,
        glyphHeight] at *
      omega
    refine .inr ⟨⟨hpresent, hmapped, htype, hbpp, hwidth, hheight, hpitch, haligned⟩, ?_⟩
    dsimp only
    rw [hcols, hrows, if_neg hpos]
    rfl

/-- What a console is that has been given a framebuffer. -/
theorem consoleEnableFramebuffer_true {c : Console} {fb : VideoFramebufferInfo}
    (h : (consoleEnableFramebuffer c fb).2 = true) :
    fb.Accepted ∧
      (consoleEnableFramebuffer c fb).1 = consoleClear { c with toGeometry := fb.geometry } := by
  rcases consoleEnableFramebuffer_cases c fb with hfail | ⟨haccepted, hok⟩
  · rw [hfail] at h
    cases h
  · exact ⟨haccepted, congrArg Prod.fst hok⟩

theorem VideoFramebufferInfo.Accepted.selectable {fb : VideoFramebufferInfo}
    (h : fb.Accepted) : fb.geometry.Selectable := by
  have hwidth := h.width
  have hheight := h.height
  simp only [Geometry.Selectable, VideoFramebufferInfo.geometry, fbMaxCols, fbMaxRows, glyphWidth,
    glyphHeight] at *
  omega

theorem consoleEnableFramebuffer_bounded {c : Console} (h : Sim Bounded c c)
    (fb : VideoFramebufferInfo) :
    Sim Bounded (consoleEnableFramebuffer c fb).1 (consoleEnableFramebuffer c fb).1 := by
  rcases consoleEnableFramebuffer_cases c fb with hfail | ⟨haccepted, hok⟩
  · rw [hfail]
    exact h
  · rw [hok]
    exact consoleClear_sim bounded_drawRel ⟨rfl, haccepted.selectable, h.display.inside⟩

/-! ## Every run -/

/-- A call of the console's interface, the choice of the display included. It may come at any
time, with any description. -/
inductive ConsoleOp : Type where
  /-- a call that leaves the display in place -/
  | call (call : ConsoleCall) : ConsoleOp
  /-- `console_enable_framebuffer`, with what `video_framebuffer_info` returns -/
  | enableFramebuffer (fb : VideoFramebufferInfo) : ConsoleOp

/-- The effect of a call on the console. -/
def consoleOp (c : Console) : ConsoleOp → Console
  | .call call => consoleCall c call
  | .enableFramebuffer fb => (consoleEnableFramebuffer c fb).1

theorem consoleOps_bounded (ops : List ConsoleOp) :
    ∀ {c : Console}, Sim Bounded c c →
      Sim Bounded (ops.foldl consoleOp c) (ops.foldl consoleOp c) := by
  induction ops with
  | nil => exact fun h => h
  | cons op ops ih =>
    intro c h
    refine ih ?_
    cases op with
    | call call => exact consoleCall_sim bounded_drawRel h call
    | enableFramebuffer fb => exact consoleEnableFramebuffer_bounded h fb

theorem consoleInit_bounded {c : Console} (htrace : ∀ ev ∈ c.trace, ev.Inside) :
    Sim Bounded (consoleInit c) (consoleInit c) :=
  consoleClear_sim bounded_drawRel ⟨rfl, ⟨rfl, rfl⟩, htrace⟩

/-- What every caller of the console can rely on, in any state that calls lead to. The last two
fields are about all accesses so far: every index was inside its array, and that was so without
the bounds check of `backend_put_cell` having to step in. -/
structure Console.InBounds (c : Console) : Prop where
  /-- the display is VGA 80x25 or a framebuffer of 1..160 by 1..100 cells -/
  selectable : c.toGeometry.Selectable
  row : c.cursorRow < c.termRows
  col : c.cursorCol < c.termCols
  params : c.ansiParams.length ≤ ansiMaxParams
  fg : c.ansiFg ≤ 15
  bg : c.ansiBg ≤ 15
  utf8 : c.utf8Needed ≤ 3
  /-- every cell accessed so far is inside its array -/
  inside : ∀ e ∈ c.trace, e.Inside
  /-- no put ended at the bounds check of `backend_put_cell` -/
  kept : ∀ row col, ConsoleEvent.discarded row col ∉ c.trace

/-- **The console stays in bounds**: after any calls, in any order and with any
bytes and framebuffers, from `console_init` on. The trace is empty when
`console_init` is called. -/
theorem consoleRun_inBounds (c : Console) (ops : List ConsoleOp) :
    (ops.foldl consoleOp (consoleInit { c with trace := [] })).InBounds := by
  have hinit : Sim Bounded (consoleInit { c with trace := [] }) (consoleInit { c with trace := [] }) :=
    consoleInit_bounded fun ev hev => absurd hev List.not_mem_nil
  have h := consoleOps_bounded ops hinit
  obtain ⟨hparams, hfg, hbg, hutf8⟩ := h.sane
  exact ⟨h.display.selectable, h.row, h.col, hparams, hfg, hbg, hutf8, h.display.inside,
    fun row col hmem => h.display.inside _ hmem⟩

end WaluOs
