import WaluOs.ConsolePicture
import WaluOs.Video

/-!
# Pixel stores and the size of the framebuffer

`video_map_framebuffer` checks the product of pitch and height, and
`console_enable_framebuffer` each dimension by itself. Neither compares the width
with the pitch. `fb_plot` then clips at the width, so a line may reach beyond its
pitch, and the last line that is drawn beyond the framebuffer.

Both directions are about the last line of the console: if it fits all others do, and there are
calls that draw it.
-/

namespace WaluOs

open Loops RadixTable

/-! ## The last pixel -/

/-- The last pixel of the area decides whether all of it lies below a bound. -/
theorem Geometry.area_bounded_iff {g : Geometry} (hrows : 0 < g.termRows) (hcols : 0 < g.termCols)
    (bound : ℕ) :
    (∀ i, g.Area i → i < bound) ↔
      (g.termRows * glyphHeight - 1) * g.fbPitchPixels + g.termCols * glyphWidth ≤ bound := by
  have hheight : 0 < g.termRows * glyphHeight := Nat.mul_pos hrows (by decide)
  have hwidth : 0 < g.termCols * glyphWidth := Nat.mul_pos hcols (by decide)
  constructor
  · intro h
    have hlast := h _ ⟨g.termCols * glyphWidth - 1, Nat.sub_lt hwidth Nat.one_pos,
      g.termRows * glyphHeight - 1, Nat.sub_lt hheight Nat.one_pos, rfl⟩
    omega
  · rintro h i ⟨x, hx, y, hy, rfl⟩
    have hline : y * g.fbPitchPixels ≤ (g.termRows * glyphHeight - 1) * g.fbPitchPixels :=
      Nat.mul_le_mul_right _ (Nat.le_sub_one_of_lt hy)
    omega

/-- In lines: the last one that is drawn must fit in what is left of the framebuffer. -/
theorem lastLine_iff {rows height pitch width : ℕ} (hrows : 0 < rows) (hle : rows ≤ height) :
    (rows - 1) * pitch + width ≤ height * pitch ↔ width ≤ (height + 1 - rows) * pitch := by
  obtain ⟨n, rfl⟩ := Nat.exists_eq_add_of_le hle
  obtain ⟨k, rfl⟩ := Nat.exists_eq_succ_of_ne_zero (Nat.ne_of_gt hrows)
  have hsplit : (k + 1 + n) * pitch = k * pitch + (n + 1) * pitch := by
    rw [← Nat.add_mul]
    congr 1
    omega
  have hlines : k + 1 + n + 1 - (k + 1) = n + 1 := by omega
  rw [Nat.succ_sub_one, Nat.succ_eq_add_one, hsplit, hlines]
  exact Nat.add_le_add_iff_left

/-! ## Every run -/

/-- A call of the console's interface, with the framebuffer description left as it is. What
matters for the pixels is that the same description is used throughout. -/
inductive FramebufferOp : Type where
  /-- a call that leaves the display in place -/
  | call (call : ConsoleCall) : FramebufferOp
  /-- `console_enable_framebuffer` -/
  | enableFramebuffer : FramebufferOp
  /-- `console_init` -/
  | init : FramebufferOp
  deriving DecidableEq, Repr

/-- The effect of a call on the console, with what `video_framebuffer_info` returns. -/
def framebufferOp (fb : VideoFramebufferInfo) (c : Console) : FramebufferOp → Console
  | .call call => consoleCall c call
  | .enableFramebuffer => (consoleEnableFramebuffer c fb).1
  | .init => consoleInit c

/-- The geometry that `console_init` goes back to. -/
def Geometry.textMode (g : Geometry) : Geometry :=
  { g with backend := .vga, termCols := vgaWidth, termRows := vgaHeight }

/-- A console on the framebuffer of `g`, or in text mode after it. In either case all pixels that
it has ever written are pixels of the cells of `g`. -/
structure OnFramebuffer (g : Geometry) (d e : Display) : Prop where
  same : d = e
  geometry : d.toGeometry = g ∨ d.toGeometry = g.textMode
  area : ∀ i, d.Plotted i → g.fbMemory ≠ 0 ∧ g.Area i

variable {g : Geometry} {d : Display}

theorem OnFramebuffer.samePicture {e : Display} (h : OnFramebuffer g d d)
    (he : SamePicture d e) : OnFramebuffer g e e :=
  ⟨rfl, he.geometry ▸ h.geometry, fun i hi => h.area i ((he.plotted i).mp hi)⟩

theorem Confined.onFramebuffer (h : Confined g d) : OnFramebuffer g d d :=
  ⟨rfl, .inl h.geometry, h.area⟩

/-- What a drawing function must keep: the confinement on the framebuffer, and the
picture in text mode. -/
theorem OnFramebuffer.draw (h : OnFramebuffer g d d) {f : Display → Display}
    (hfb : Confined g d → Confined g (f d)) (hvga : d.backend = .vga → SamePicture d (f d)) :
    OnFramebuffer g (f d) (f d) := by
  rcases h.geometry with hgeo | hgeo
  · exact (hfb ⟨hgeo, h.area⟩).onFramebuffer
  · exact h.samePicture (hvga (congrArg Geometry.backend hgeo))

/-- The drawing functions keep to the framebuffer. A console with a framebuffer never goes back to
VGA, and the geometry is what it was when that was accepted. -/
theorem onFramebuffer_drawRel (hg : g.FbConsole) : DrawRel (OnFramebuffer g) where
  rows := fun h => by rw [h.same]
  cols := fun h => by rw [h.same]
  rows_pos := fun h => by
    rcases h.geometry with hgeo | hgeo
    · rw [hgeo]
      exact hg.selectable.rows_pos
    · rw [hgeo]
      exact (by decide : 0 < vgaHeight)
  cols_pos := fun h => by
    rcases h.geometry with hgeo | hgeo
    · rw [hgeo]
      exact hg.selectable.cols_pos
    · rw [hgeo]
      exact (by decide : 0 < vgaWidth)
  notePut := by
    rintro d e h byte
    obtain rfl := h.same
    exact h.samePicture (note_samePicture d nofun)
  noteEmit := by
    rintro d e h cp
    obtain rfl := h.same
    exact h.samePicture (note_samePicture d nofun)
  put := by
    rintro d e h row col hrow hcol byte - color
    obtain rfl := h.same
    refine h.draw (f := fun d => backendPutCell d row col byte color) (fun hd => ?_) fun hb => ?_
    · obtain rfl := hd.geometry
      exact hd.put hg hrow hcol byte color
    · exact backendPutCell_vga hb row col byte color
  clearAll := by
    rintro d e h color
    obtain rfl := h.same
    exact h.draw (f := fun d => backendClearAll d color) (fun hd => hd.clearAll hg color)
      fun hb => backendClearAll_vga hb color
  scrollUp := by
    rintro d e h color
    obtain rfl := h.same
    exact h.draw (f := fun d => backendScrollUp d color) (fun hd => hd.scrollUp hg color)
      fun hb => backendScrollUp_vga hb color

/-- An accepted framebuffer, and one call of the console. -/
theorem framebufferOp_onFramebuffer {fb : VideoFramebufferInfo} (hg : fb.geometry.FbConsole)
    {c : Console} (h : Sim (OnFramebuffer fb.geometry) c c) (op : FramebufferOp) :
    Sim (OnFramebuffer fb.geometry) (framebufferOp fb c op) (framebufferOp fb c op) := by
  cases op with
  | call call => exact consoleCall_sim (onFramebuffer_drawRel hg) h call
  | enableFramebuffer =>
    rw [framebufferOp]
    rcases consoleEnableFramebuffer_cases c fb with hfail | ⟨-, hok⟩
    · rw [hfail]
      exact h
    · rw [hok]
      exact consoleClear_sim (onFramebuffer_drawRel hg) ⟨rfl, .inl rfl, h.display.area⟩
  | init =>
    have hgeo : c.toGeometry.textMode = fb.geometry.textMode := by
      rcases h.display.geometry with hc | hc
      · rw [hc]
      · rw [hc]
        rfl
    exact consoleClear_sim (onFramebuffer_drawRel hg) ⟨rfl, .inr hgeo, h.display.area⟩

theorem framebufferOps_onFramebuffer {fb : VideoFramebufferInfo} (hg : fb.geometry.FbConsole)
    (ops : List FramebufferOp) :
    ∀ {c : Console}, Sim (OnFramebuffer fb.geometry) c c →
      Sim (OnFramebuffer fb.geometry) (ops.foldl (framebufferOp fb) c)
        (ops.foldl (framebufferOp fb) c) := by
  induction ops with
  | nil => exact fun h => h
  | cons op ops ih => exact fun h => ih (framebufferOp_onFramebuffer hg h op)

/-- The first picture already writes every pixel of the area. -/
theorem consoleEnableFramebuffer_plotted {c : Console} {fb : VideoFramebufferInfo}
    (henable : (consoleEnableFramebuffer c fb).2 = true) (hg : fb.geometry.FbConsole) (i : ℕ) :
    (consoleEnableFramebuffer c fb).1.Plotted i ↔
      c.Plotted i ∨ fb.geometry.fbMemory ≠ 0 ∧ fb.geometry.Area i := by
  rw [(consoleEnableFramebuffer_true henable).2, consoleClear_toDisplay,
    backendClearAll_plotted hg.toFramed hg.backend rfl]
  rfl

/-! ## Stores inside the framebuffer -/

/-- The last line of pixels that is drawn ends before the framebuffer does: its width, eight
pixels for each of at most 160 columns, is at most what the lines from it on occupy. This is a
little weaker than a width that fits the pitch: lines may overlap as long as the last one has room
behind it. -/
def VideoFramebufferInfo.LastLineFits (fb : VideoFramebufferInfo) : Prop :=
  min (fb.width.toNat / glyphWidth) fbMaxCols * glyphWidth ≤
    (fb.height.toNat + 1 - min (fb.height.toNat / glyphHeight) fbMaxRows * glyphHeight) *
      (fb.pitch.toNat / 4)

/-- A word lies inside the framebuffer exactly if its index lies below the number of
words of all lines. -/
theorem store_inside_iff {fb : VideoFramebufferInfo} (h : fb.Accepted)
    (hsize : fb.sizeBytes.toNat = fb.pitch.toNat * fb.height.toNat) (i : ℕ) :
    4 * i + 4 ≤ fb.sizeBytes.toNat ↔ i < fb.height.toNat * (fb.pitch.toNat / 4) := by
  have hmod : fb.pitch.toNat % 4 = 0 := congrArg UInt32.toNat h.aligned
  have hpitch : fb.pitch.toNat = 4 * (fb.pitch.toNat / 4) := by omega
  have hwords : fb.sizeBytes.toNat = 4 * (fb.height.toNat * (fb.pitch.toNat / 4)) := by
    rw [hsize, Nat.mul_left_comm, ← hpitch, Nat.mul_comm]
  omega

theorem area_inside_iff {fb : VideoFramebufferInfo} (h : fb.Accepted)
    (hsize : fb.sizeBytes.toNat = fb.pitch.toNat * fb.height.toNat) :
    (∀ i, fb.geometry.Area i → 4 * i + 4 ≤ fb.sizeBytes.toNat) ↔ fb.LastLineFits := by
  have hrows := h.selectable.rows_pos
  have hheight : 0 < fb.geometry.termRows * glyphHeight := Nat.mul_pos hrows (by decide)
  have hle : fb.geometry.termRows * glyphHeight ≤ fb.height.toNat :=
    (Nat.mul_le_mul_right _ (Nat.min_le_left _ _)).trans (Nat.div_mul_le_self _ _)
  simp only [store_inside_iff h hsize]
  rw [Geometry.area_bounded_iff hrows h.selectable.cols_pos]
  exact lastLine_iff hheight hle

/-- Over all further calls of the console the whole area is written, and nothing else. -/
theorem framebufferOps_plotted_iff (c : Console) {fb : VideoFramebufferInfo}
    (henable : (consoleEnableFramebuffer { c with trace := [] } fb).2 = true)
    (hg : fb.geometry.FbConsole) (P : ℕ → Prop) :
    (∀ (ops : List FramebufferOp) (i : ℕ),
      (ops.foldl (framebufferOp fb)
        (consoleEnableFramebuffer { c with trace := [] } fb).1).Plotted i → P i) ↔
      fb.geometry.fbMemory = 0 ∨ ∀ i, fb.geometry.Area i → P i := by
  have hfirst := consoleEnableFramebuffer_plotted henable hg
  constructor
  · intro hall
    by_cases hmem : fb.geometry.fbMemory = 0
    · exact .inl hmem
    · -- Clearing the console already stores to its whole area.
      exact .inr fun i hi => hall [] i ((hfirst i).mpr (.inr ⟨hmem, hi⟩))
  · intro hfits ops i hi
    have hstart : Sim (OnFramebuffer fb.geometry)
        (consoleEnableFramebuffer { c with trace := [] } fb).1
        (consoleEnableFramebuffer { c with trace := [] } fb).1 := by
      rw [(consoleEnableFramebuffer_true henable).2]
      exact consoleClear_sim (onFramebuffer_drawRel hg)
        ⟨rfl, .inl rfl, fun i hi => absurd hi List.not_mem_nil⟩
    obtain ⟨hmem, harea⟩ := (framebufferOps_onFramebuffer hg ops hstart).display.area i hi
    rcases hfits with hnull | hfits
    · exact absurd hnull hmem
    · exact hfits i harea

/-- **Every pixel store lies inside the framebuffer exactly if the last line fits**: for
a framebuffer that was mapped and then accepted, over all further calls of the console. -/
theorem framebuffer_stores_inside_iff (c : Console) {pml4Table fuel : ℕ} {s s' : Vmm}
    {fb fb' : VideoFramebufferInfo}
    (hmap : videoMapFramebuffer pml4Table fuel s fb = some ((s', fb'), true))
    (hsize : fb.sizeBytes.toNat = fb.pitch.toNat * fb.height.toNat)
    (henable : (consoleEnableFramebuffer { c with trace := [] } fb').2 = true) :
    (∀ (ops : List FramebufferOp) (i : ℕ),
      (ops.foldl (framebufferOp fb')
        (consoleEnableFramebuffer { c with trace := [] } fb').1).Plotted i →
        4 * i + 4 ≤ fb'.sizeBytes.toNat) ↔
      fb.physAddr = 0 ∨ fb.LastLineFits := by
  obtain ⟨⟨-, -, hmax⟩, hfb'⟩ := videoMapFramebuffer_true hmap
  have hsize' : fb'.sizeBytes.toNat = fb'.pitch.toNat * fb'.height.toNat := by
    rw [hfb']
    exact hsize
  have hmapped : (fb'.physAddr = 0 ∨ fb'.LastLineFits) ↔ fb.physAddr = 0 ∨ fb.LastLineFits := by
    rw [hfb']
    rfl
  rw [← hmapped]
  have haccepted := (consoleEnableFramebuffer_true henable).1
  -- The size that was mapped bounds the indices, so none of them wraps.
  have hg : fb'.geometry.FbConsole := by
    refine haccepted.fbConsole ?_
    rw [← hsize', hfb']
    exact UInt64.le_iff_toNat_le.mp hmax
  have hmem : fb'.geometry.fbMemory = 0 ↔ fb'.physAddr = 0 :=
    UInt64.toNat_inj (b := 0)
  rw [framebufferOps_plotted_iff c henable hg, area_inside_iff haccepted hsize', hmem]

/-! ## A short pitch -/

/-- A framebuffer of 640 by 480 pixels whose pitch has room for 160 of them. -/
def fbShortPitch : VideoFramebufferInfo :=
  { present := true, mapped := false, physAddr := 0x20000000, sizeBytes := 307200
    width := 640, height := 480, pitch := 640, bpp := 32, type := 1 }

/-- It lies in one page of the window of the boot tables. -/
theorem videoMapFramebuffer_shortPitch (p : Pmm) :
    ∃ s', videoMapFramebuffer layoutAt1M.pml4Table 2 ⟨bootMem, p⟩ fbShortPitch =
      some ((s', { fbShortPitch with mapped := true }), true) :=
  videoMapFramebuffer_onePage 0x20000000 rfl (by decide) (by decide) (by decide)
    (by decide) (by decide) (vmmMap2m_bootMem p _ _ (by decide) (by decide) (by decide) _)

theorem fbShortPitch_enabled :
    (consoleEnableFramebuffer { idleConsole vgaText with trace := [] }
      { fbShortPitch with mapped := true }).2 = true := by
  rfl

/-- The last pixel of a console on it lies beyond the framebuffer. -/
theorem fbShortPitch_stores_outside : ∃ s s', VmmReachable kernelAt1M layoutAt1M s ∧
    videoMapFramebuffer layoutAt1M.pml4Table 2 s fbShortPitch =
      some ((s', { fbShortPitch with mapped := true }), true) ∧
    fbShortPitch.sizeBytes.toNat = fbShortPitch.pitch.toNat * fbShortPitch.height.toNat ∧
    (consoleEnableFramebuffer { idleConsole vgaText with trace := [] }
      { fbShortPitch with mapped := true }).2 = true ∧
    (consoleEnableFramebuffer { idleConsole vgaText with trace := [] }
      { fbShortPitch with mapped := true }).1.Plotted (479 * 160 + 639) ∧
    ¬4 * (479 * 160 + 639) + 4 ≤ fbShortPitch.sizeBytes.toNat := by
  obtain ⟨p, hp⟩ := exists_reachable_bootMem
  obtain ⟨s', hs'⟩ := videoMapFramebuffer_shortPitch p
  have hg := (consoleEnableFramebuffer_true fbShortPitch_enabled).1.fbConsole (by decide)
  refine ⟨_, s', hp, hs', by decide, fbShortPitch_enabled, ?_, by decide⟩
  rw [consoleEnableFramebuffer_plotted fbShortPitch_enabled hg]
  exact .inr ⟨by decide, 639, by decide, 479, by decide, rfl⟩

theorem framebuffer_stores_inside_iff_shortPitch : ∃ s', VmmReachable kernelAt1M layoutAt1M s' ∧
    ((∀ (ops : List FramebufferOp) (i : ℕ),
      (ops.foldl (framebufferOp { fbShortPitch with mapped := true })
        (consoleEnableFramebuffer { idleConsole vgaText with trace := [] }
          { fbShortPitch with mapped := true }).1).Plotted i →
        4 * i + 4 ≤ ({ fbShortPitch with mapped := true } : VideoFramebufferInfo).sizeBytes.toNat) ↔
      fbShortPitch.physAddr = 0 ∨ fbShortPitch.LastLineFits) := by
  obtain ⟨p, hp⟩ := exists_reachable_bootMem
  obtain ⟨s', hs'⟩ := videoMapFramebuffer_shortPitch p
  exact ⟨_, hp, framebuffer_stores_inside_iff (idleConsole vgaText) hs' (by decide)
    fbShortPitch_enabled⟩

end WaluOs
