import WaluOs.PmmRuns

/-!
# The count of frames in use

`used_frames` is never computed: it is set once, when every bit is set, and from then on
`bitmap_set` and `bitmap_clear` move it by one when they change a bit. `Pmm.Counted` is
that it is the number of set bits nevertheless, whatever the regions of the memory map are
and whatever is freed, and the three figures in KiB add up because of it.
-/

namespace WaluOs

open Loops

/-- `PMM_MAX_FRAMES` -/
abbrev pmmMaxFrames : ℕ := pmmMaxMemory / frameSize

/-- `pmm_total_kib` -/
def pmmTotalKib (p : Pmm) : ℕ := p.totalFrames * frameSize % 2 ^ 64 / 1024

/-- `pmm_used_kib` -/
def pmmUsedKib (p : Pmm) : ℕ := p.usedFrames * frameSize % 2 ^ 64 / 1024

/-- `pmm_free_kib` -/
def pmmFreeKib (p : Pmm) : ℕ :=
  if p.usedFrames > p.totalFrames then 0
  else (p.totalFrames - p.usedFrames) * frameSize % 2 ^ 64 / 1024

/-- `used_frames` counts the set bits of the managed frames. The counter moves only when a bit
does, so this survives every call, also a free of a frame that is free. -/
structure Pmm.Counted (p : Pmm) : Prop where
  /-- the set bits -/
  used : p.usedFrames = (p.frameBitmap.below p.totalFrames).card
  /-- `total_frames` fits the bitmap -/
  total_le : p.totalFrames ≤ pmmMaxFrames

/-- `p'` manages the same frames, and the bits of all others are as they were. -/
structure Pmm.SameBeyond (p p' : Pmm) : Prop where
  /-- `total_frames` -/
  total : p'.totalFrames = p.totalFrames
  /-- the other bits -/
  beyond : ∀ f ≥ p.totalFrames, p'.frameBitmap.test f = p.frameBitmap.test f

/-- What every step does. -/
def Pmm.Keeps (p p' : Pmm) : Prop := p.Counted → p'.Counted ∧ p.SameBeyond p'

variable {p p' p'' : Pmm}

theorem Pmm.Counted.used_le (h : p.Counted) : p.usedFrames ≤ p.totalFrames := by
  rw [h.used]
  exact Bitmap.card_below_le _ _

theorem Pmm.SameBeyond.refl (p : Pmm) : p.SameBeyond p := ⟨rfl, fun _ _ => rfl⟩

theorem Pmm.SameBeyond.trans (h : p.SameBeyond p') (h' : p'.SameBeyond p'') : p.SameBeyond p'' := by
  refine ⟨h'.total.trans h.total, fun f hf => ?_⟩
  have hf' : f ≥ p'.totalFrames := by
    rw [h.total]
    exact hf
  exact (h'.beyond f hf').trans (h.beyond f hf)

theorem Pmm.Keeps.refl (p : Pmm) : p.Keeps p := fun h => ⟨h, .refl p⟩

theorem Pmm.Keeps.trans (h : p.Keeps p') (h' : p'.Keeps p'') : p.Keeps p'' := by
  intro hp
  obtain ⟨hp', hsame⟩ := h hp
  obtain ⟨hp'', hsame'⟩ := h' hp'
  exact ⟨hp'', hsame.trans hsame'⟩

/-! ## Single frames -/

theorem bitmapSet_keeps (p : Pmm) (frame : ℕ) : p.Keeps (bitmapSet p frame) := by
  intro h
  have hbits : p.SameBeyond (bitmapSet p frame) := by
    refine ⟨totalFrames_bitmapSet p frame, fun f hf => ?_⟩
    rw [test_bitmapSet, if_neg]
    rintro ⟨rfl, hlt⟩
    exact Nat.not_lt.mpr hf hlt
  refine ⟨⟨?_, ?_⟩, hbits⟩
  · rw [bitmapSet]
    split_ifs with hout hclear
    · exact h.used
    · change p.usedFrames + 1 = ((p.frameBitmap.set frame).below p.totalFrames).card
      rw [Bitmap.card_below_set (Nat.not_le.mp hout) hclear, h.used]
    · exact h.used
  · rw [totalFrames_bitmapSet]
    exact h.total_le

theorem bitmapClear_keeps (p : Pmm) (frame : ℕ) : p.Keeps (bitmapClear p frame) := by
  intro h
  have hbits : p.SameBeyond (bitmapClear p frame) := by
    refine ⟨totalFrames_bitmapClear p frame, fun f hf => ?_⟩
    rw [test_bitmapClear, if_neg]
    rintro ⟨rfl, hlt⟩
    exact Nat.not_lt.mpr hf hlt
  refine ⟨⟨?_, ?_⟩, hbits⟩
  · rw [bitmapClear]
    split_ifs with hout hset
    · exact h.used
    -- The bit that is cleared has been counted, so the counter is not at 0.
    · change p.usedFrames - 1 = ((p.frameBitmap.clear frame).below p.totalFrames).card
      rw [h.used, ← Bitmap.card_below_clear (Nat.not_le.mp hout) hset, Nat.add_sub_cancel]
    · exact h.used
  · rw [totalFrames_bitmapClear]
    exact h.total_le

/-! ## Regions -/

/-- Whether or not the end wraps, a region is marked frame by frame. -/
theorem markRegion_keeps (p : Pmm) (addr len : ℕ) (available : Bool) :
    p.Keeps (markRegion p addr len available) := by
  rw [markRegion]
  split
  · exact .refl p
  · refine forRange_invariant (.refl p) fun f t _ _ ht => ht.trans ?_
    cases available
    · exact bitmapSet_keeps t f
    · exact bitmapClear_keeps t f

theorem markAvailable_keeps (p : Pmm) (entry : MmapEntry) : p.Keeps (markAvailable p entry) := by
  rw [markAvailable]
  split
  · exact markRegion_keeps p _ _ true
  · exact .refl p

theorem pmmReserve_keeps (image : KernelImage) (p : Pmm) : p.Keeps (pmmReserve image p) :=
  (markRegion_keeps p _ _ false).trans (markRegion_keeps _ _ _ false)

/-- Every bit is set, and every managed frame is counted. -/
theorem pmmReset_counted (highest : ℕ) : (pmmReset highest).Counted := by
  refine ⟨?_, ?_⟩
  · rw [Bitmap.card_below_full fun f _ => test_pmmReset highest f]
    rfl
  · rw [pmmReset]
    dsimp only [pmmMaxFrames, pmmMaxMemory, frameSize]
    split_ifs <;> omega

/-- The state after `pmm_init`, whatever is in the information area: the highest end that the
first pass finds decides how many frames are managed, and the bits beyond them stay set. -/
theorem pmmInit_keeps {image : KernelImage} {mb : Block} {fuel : ℕ} {p : Pmm}
    (h : pmmInit image mb fuel = some p) :
    ∃ highest q, walkEntries mb fuel highestAvailableEnd (16 * 1024 * 1024) = some highest ∧
      walkEntries mb fuel markAvailable (pmmReset highest) = some q ∧ p = pmmReserve image q ∧
      (pmmReset highest).Keeps q := by
  rw [pmmInit] at h
  cases hfirst : walkEntries mb fuel highestAvailableEnd (16 * 1024 * 1024) with
  | none =>
    rw [hfirst] at h
    cases h
  | some highest =>
    rw [hfirst] at h
    dsimp only at h
    cases hsecond : walkEntries mb fuel markAvailable (pmmReset highest) with
    | none =>
      rw [hsecond] at h
      cases h
    | some q =>
      rw [hsecond] at h
      have hkeeps : (pmmReset highest).Keeps q :=
        walkEntries_keeps (fun t entry ht => Pmm.Keeps.trans ht (markAvailable_keeps t entry))
          (.refl _) hsecond
      exact ⟨highest, q, rfl, hsecond, (Option.some.inj h).symm, hkeeps⟩

/-- So every frame is counted, and the bits beyond are set. -/
theorem pmmInit_counted {image : KernelImage} {mb : Block} {fuel : ℕ} {p : Pmm}
    (h : pmmInit image mb fuel = some p) :
    p.Counted ∧ ∀ f ≥ p.totalFrames, p.frameBitmap.test f = true := by
  obtain ⟨highest, q, -, -, rfl, hq⟩ := pmmInit_keeps h
  have hkeeps := hq.trans (pmmReserve_keeps image q)
  obtain ⟨hcounted, hsame⟩ := hkeeps (pmmReset_counted highest)
  refine ⟨hcounted, fun f hf => ?_⟩
  rw [hsame.total] at hf
  exact (hsame.beyond f hf).trans (test_pmmReset highest f)

/-! ## Calls -/

theorem pmmAllocBelow_keeps (p : Pmm) (maxFrame : ℕ) : p.Keeps (pmmAllocBelow p maxFrame).1 := by
  rcases pmmAllocBelow_cases p maxFrame with ⟨heq, -⟩ | ⟨f, -, -, -, heq⟩ <;> rw [heq]
  · exact .refl p
  · exact bitmapSet_keeps p f

theorem pmmStep_keeps (s : PmmState) (op : PmmOp) : s.pmm.Keeps (pmmStep s op).pmm := by
  cases op with
  | allocFrame => exact pmmAllocBelow_keeps _ _
  | allocFrameLow maxPhysAddr => exact pmmAllocBelow_keeps _ _
  | freeFrame physAddr => exact bitmapClear_keeps _ _

theorem pmmRun_keeps (ops : List PmmOp) : ∀ s : PmmState, s.pmm.Keeps (pmmRun s ops).pmm := by
  induction ops with
  | nil => exact fun s => .refl s.pmm
  | cons op ops ih => exact fun s => (pmmStep_keeps s op).trans (ih _)

/-! ## Figures -/

/-- A number of frames in KiB, computed in 64 bits. -/
theorem framesKib_eq {frames : ℕ} (h : frames ≤ pmmMaxFrames) :
    frames * frameSize % 2 ^ 64 / 1024 = 4 * frames := by
  simp only [pmmMaxFrames, pmmMaxMemory, frameSize] at *
  omega

/-- The figures are what they are called: `meminfo` prints the frames in use and all managed
frames, in KiB, and the two others add up. -/
structure Pmm.Figures (p : Pmm) : Prop where
  /-- the frames in use -/
  used : pmmUsedKib p = 4 * (p.frameBitmap.below p.totalFrames).card
  /-- and all of them -/
  total : pmmTotalKib p = 4 * p.totalFrames
  /-- nothing is missing -/
  sum : pmmUsedKib p + pmmFreeKib p = pmmTotalKib p

theorem Pmm.Counted.figures (h : p.Counted) : p.Figures := by
  have hused : pmmUsedKib p = 4 * p.usedFrames := framesKib_eq (h.used_le.trans h.total_le)
  have htotal : pmmTotalKib p = 4 * p.totalFrames := framesKib_eq h.total_le
  have hfree : pmmFreeKib p = 4 * (p.totalFrames - p.usedFrames) := by
    rw [pmmFreeKib, if_neg (Nat.not_lt.mpr h.used_le),
      framesKib_eq ((Nat.sub_le _ _).trans h.total_le)]
  refine ⟨hused.trans (congrArg (4 * ·) h.used), htotal, ?_⟩
  rw [hused, hfree, htotal, ← Nat.mul_add, Nat.add_sub_cancel' h.used_le]

/-! ## The theorem -/

/-- **The counter is right**, after `pmm_init` and after any calls, and the bits beyond the
managed frames are those of `pmm_init`. -/
theorem pmmRun_counted (image : KernelImage) (mb : Block) (tags : List Tag)
    (h : WellFormed mb tags) (fuel : ℕ) (hfuel : mbTotalSize mb ≤ fuel) :
    ∃ p, pmmInit image mb fuel = some p ∧ (∀ f ≥ p.totalFrames, p.frameBitmap.test f = true) ∧
      ∀ (handedOut : Finset ℕ) (ops : List PmmOp),
        let s := (pmmRun ⟨p, handedOut⟩ ops).pmm
        s.usedFrames = (s.frameBitmap.below s.totalFrames).card ∧
          s.usedFrames ≤ s.totalFrames ∧ s.totalFrames ≤ 262144 ∧ s.totalFrames = p.totalFrames ∧
          (∀ f ≥ p.totalFrames, s.frameBitmap.test f = p.frameBitmap.test f) ∧ s.Figures := by
  obtain ⟨p, hp, -⟩ : ∃ p, pmmInit image mb fuel = some p ∧ True := by
    rw [pmmInit, walkEntries_eq h hfuel]
    dsimp only
    rw [walkEntries_eq h hfuel]
    exact ⟨_, rfl, trivial⟩
  obtain ⟨hcounted, hbeyond⟩ := pmmInit_counted hp
  refine ⟨p, hp, hbeyond, fun handedOut ops => ?_⟩
  obtain ⟨hrun, hbits⟩ := pmmRun_keeps ops ⟨p, handedOut⟩ hcounted
  exact ⟨hrun.used, hrun.used_le, hrun.total_le, hbits.total, hbits.beyond, hrun.figures⟩

/-- On this block, an address that was never handed out is freed twice, and one far beyond
the memory once. -/
theorem pmmRun_counted_oddBlock :
    ∃ p, pmmInit kernelAt1M oddBlock 56 = some p ∧
      (pmmRun ⟨p, ∅⟩ [.freeFrame 0x5000, .freeFrame 0x5000, .freeFrame (2 ^ 64 - 1),
        .allocFrameLow 0x5000]).pmm.Figures := by
  obtain ⟨p, hp, -, hrun⟩ := pmmRun_counted kernelAt1M oddBlock oddTags oddBlock_wellFormed 56
    (by decide)
  exact ⟨p, hp, (hrun ∅ _).2.2.2.2.2⟩

end WaluOs
