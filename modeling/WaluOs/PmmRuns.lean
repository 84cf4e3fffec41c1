import Mathlib.Data.Finset.Basic
import WaluOs.Pmm

/-!
# Allocation histories

A history is any list of `pmm_alloc_frame`, `pmm_alloc_frame_low` and
`pmm_free_frame` calls that frees only addresses it was given and has not freed
since. `PmmState` is the allocator with the set of those addresses.

The invariant (`PmmState.Ok`) says which frames are free at any time: those that
were free after `pmm_init` and are not outstanding. What a call may return
follows from it (`AllocSpec`). It also settles which frames can be returned at
all, namely every one that was free at the start, and so when the allocator
only hands out frames that are wholly RAM.
-/

namespace WaluOs

/-- The calls, with any arguments. An address to be freed need not be one that was handed out. -/
inductive PmmOp : Type where
  /-- `pmm_alloc_frame` -/
  | allocFrame : PmmOp
  /-- `pmm_alloc_frame_low` -/
  | allocFrameLow : ℕ → PmmOp
  /-- `pmm_free_frame` -/
  | freeFrame : ℕ → PmmOp
  deriving DecidableEq, Repr

/-- The allocator and the addresses it has handed out. The second part is not kept anywhere in the
code: it is what the callers know. -/
structure PmmState : Type where
  /-- the allocator -/
  pmm : Pmm
  /-- allocated and not freed since -/
  outstanding : Finset ℕ

/-- Take in what an allocation returned; 0 is a failure. -/
def PmmState.grant (s : PmmState) (r : Pmm × ℕ) : PmmState :=
  ⟨r.1, if r.2 = 0 then s.outstanding else insert r.2 s.outstanding⟩

/-- One call. -/
def pmmStep (s : PmmState) : PmmOp → PmmState
  | .allocFrame => s.grant (pmmAllocFrame s.pmm)
  | .allocFrameLow maxPhysAddr => s.grant (pmmAllocFrameLow s.pmm maxPhysAddr)
  | .freeFrame physAddr => ⟨pmmFreeFrame s.pmm physAddr, s.outstanding.erase physAddr⟩

/-- A history: calls one after the other, each from the state that the one before it left. -/
def pmmRun (s : PmmState) (ops : List PmmOp) : PmmState := ops.foldl pmmStep s

/-- Only outstanding addresses are freed. The allocator cannot check this, so its callers have to
keep to it. -/
def Disciplined : PmmState → List PmmOp → Prop
  | _, [] => True
  | s, op :: ops =>
    (∀ physAddr, op = .freeFrame physAddr → physAddr ∈ s.outstanding) ∧
      Disciplined (pmmStep s op) ops

theorem disciplined_append {xs ys : List PmmOp} :
    ∀ {s : PmmState}, Disciplined s (xs ++ ys) ↔ Disciplined s xs ∧ Disciplined (pmmRun s xs) ys := by
  induction xs with
  | nil => exact fun {s} => ⟨fun h => ⟨trivial, h⟩, fun h => h.2⟩
  | cons op xs ih =>
    intro s
    rw [List.cons_append, Disciplined, Disciplined, ih, and_assoc]
    rfl

/-! ## What an allocation returns -/

/-- A frame that is free now: free after `pmm_init` and not outstanding. It is the abstract side
of the bitmap, and does not mention it. -/
def PmmState.Free (image : KernelImage) (entries : List MmapEntry) (s : PmmState) (frame : ℕ) :
    Prop :=
  BootFree image entries frame ∧ frame * frameSize ∉ s.outstanding

/-- What an allocation in state `s` returns, when it may choose among the frames that satisfy
`eligible`. The specification says of a result that it was free, where it lies, and that no lower
frame would have done, and of a failure that there was nothing to be had. -/
structure AllocSpec (image : KernelImage) (entries : List MmapEntry) (s : PmmState)
    (eligible : ℕ → Prop) (r : Pmm × ℕ) : Prop where
  /-- 0 is returned exactly when no eligible frame is free -/
  zero_iff : r.2 = 0 ↔ ¬∃ frame, s.Free image entries frame ∧ eligible frame
  /-- and then nothing changes -/
  failed : r.2 = 0 → r.1 = s.pmm
  /-- what is returned was free -/
  free : r.2 ≠ 0 → s.Free image entries (r.2 / frameSize)
  /-- a frame address -/
  aligned : r.2 % frameSize = 0
  /-- below the managed memory -/
  managed : r.2 ≠ 0 → r.2 < s.pmm.totalFrames * frameSize
  /-- not in use -/
  fresh : r.2 ∉ s.outstanding
  /-- not in the first MiB -/
  above : r.2 ≠ 0 → 2 ^ 20 ≤ r.2
  /-- not of the kernel -/
  kernel : r.2 ≠ 0 → ¬Touches image.kernelStart image.kernelEnd (r.2 / frameSize)
  /-- one of those it may choose -/
  within : r.2 ≠ 0 → eligible (r.2 / frameSize)
  /-- the lowest of them that is free -/
  lowest : ∀ frame, s.Free image entries frame → eligible frame → r.2 / frameSize ≤ frame

/-- The allocator has free exactly what it should. It holds after `pmm_init`, and every call of a
disciplined history keeps it. -/
structure PmmState.Ok (image : KernelImage) (entries : List MmapEntry) (s : PmmState) : Prop where
  /-- `total_frames` stays -/
  total : s.pmm.totalFrames = usableEnd entries / frameSize
  /-- clear bits are free frames -/
  free_iff : ∀ frame, bitmapTest s.pmm frame = false ↔ s.Free image entries frame
  /-- what is outstanding was free at the start -/
  outstanding : ∀ physAddr ∈ s.outstanding,
    ∃ frame, physAddr = frame * frameSize ∧ BootFree image entries frame

theorem BootFree.lt {image : KernelImage} {entries : List MmapEntry} {frame : ℕ}
    (h : BootFree image entries frame) : frame < usableEnd entries / frameSize := by
  have := h.managed
  simp only [frameSize] at *
  omega

theorem BootFree.ne_zero {image : KernelImage} {entries : List MmapEntry} {frame : ℕ}
    (h : BootFree image entries frame) : frame * frameSize ≠ 0 :=
  Nat.ne_of_gt (Nat.lt_of_lt_of_le (by decide) h.above)

/-- The search of an allocation: it fails when every bit below the bound is
set, and else takes the first clear one. -/
theorem pmmAllocBelow_cases (p : Pmm) (maxFrame : ℕ) :
    (pmmAllocBelow p maxFrame = (p, 0) ∧ ∀ f < maxFrame, bitmapTest p f = true) ∨
    ∃ f < maxFrame, bitmapTest p f = false ∧ (∀ g < f, bitmapTest p g = true) ∧
      pmmAllocBelow p maxFrame = (bitmapSet p f, f * frameSize) := by
  rw [pmmAllocBelow]
  cases hfind : (List.range maxFrame).find? fun frame => !bitmapTest p frame with
  | none =>
    refine Or.inl ⟨rfl, fun f hf => ?_⟩
    simpa using List.find?_eq_none.mp hfind f (List.mem_range.mpr hf)
  | some f =>
    obtain ⟨hf, hlt, hfirst⟩ := List.find?_range_eq_some.mp hfind
    exact Or.inr ⟨f, List.mem_range.mp hlt, by simpa using hf,
      fun g hg => by simpa using hfirst g hg, rfl⟩

section

variable {image : KernelImage} {entries : List MmapEntry} {s : PmmState}

/-- The search meets the specification, when its bound says which frames are
eligible. -/
theorem PmmState.Ok.allocBelow (h : s.Ok image entries) {eligible : ℕ → Prop} {maxFrame : ℕ}
    (hmax : ∀ frame, s.Free image entries frame → (eligible frame ↔ frame < maxFrame)) :
    AllocSpec image entries s eligible (pmmAllocBelow s.pmm maxFrame) := by
  rcases pmmAllocBelow_cases s.pmm maxFrame with ⟨heq, hall⟩ | ⟨f, hf, hclear, hfirst, heq⟩
  · have hnone : ¬∃ frame, s.Free image entries frame ∧ eligible frame := by
      rintro ⟨frame, hfree, he⟩
      have hset := hall frame ((hmax frame hfree).mp he)
      rw [(h.free_iff frame).mpr hfree] at hset
      cases hset
    rw [heq]
    refine ⟨⟨fun _ => hnone, fun _ => rfl⟩, fun _ => rfl, fun hne => absurd rfl hne, rfl,
      fun hne => absurd rfl hne,
      fun hmem => ?_, fun hne => absurd rfl hne, fun hne => absurd rfl hne,
      fun hne => absurd rfl hne, fun _ _ _ => (Nat.zero_div _).trans_le (Nat.zero_le _)⟩
    obtain ⟨frame, hzero, hboot⟩ := h.outstanding 0 hmem
    exact hboot.ne_zero hzero.symm
  · have hfree := (h.free_iff f).mp hclear
    have hne := hfree.1.ne_zero
    have hdiv : f * frameSize / frameSize = f := Nat.mul_div_cancel _ (by decide)
    have he := (hmax f hfree).mpr hf
    rw [heq]
    refine ⟨⟨fun h0 => absurd h0 hne, fun hno => absurd ⟨f, hfree, he⟩ hno⟩,
      fun h0 => absurd h0 hne, fun _ => ?_, Nat.mul_mod_left _ _, fun _ => ?_, hfree.2,
      fun _ => hfree.1.above, fun _ => ?_, fun _ => ?_, fun g hg hge => ?_⟩
    · simpa only [hdiv] using hfree
    · rw [h.total]
      exact Nat.mul_lt_mul_of_pos_right hfree.1.lt (by decide)
    · simpa only [hdiv] using hfree.1.kernel
    · simpa only [hdiv] using he
    · rw [hdiv]
      by_contra hgt
      have hset := hfirst g (Nat.not_le.mp hgt)
      rw [(h.free_iff g).mpr hg] at hset
      cases hset

/-- `pmm_alloc_frame` may choose any frame. -/
theorem PmmState.Ok.allocFrame (h : s.Ok image entries) :
    AllocSpec image entries s (fun _ => True) (pmmAllocFrame s.pmm) :=
  h.allocBelow fun _ hfree => ⟨fun _ => h.total ▸ hfree.1.lt, fun _ => trivial⟩

/-- `pmm_alloc_frame_low` may choose the frames wholly below the address. -/
theorem PmmState.Ok.allocFrameLow (h : s.Ok image entries) (maxPhysAddr : ℕ) :
    AllocSpec image entries s (fun frame => (frame + 1) * frameSize ≤ maxPhysAddr)
      (pmmAllocFrameLow s.pmm maxPhysAddr) := by
  refine h.allocBelow fun frame hfree => ?_
  have hlt : frame < s.pmm.totalFrames := h.total ▸ hfree.1.lt
  simp only [frameSize]
  split_ifs <;> omega

/-- A free frame with no free one below it is what the next allocation returns. -/
theorem pmmAllocFrame_eq {s : PmmState} (h : s.Ok image entries) {frame : ℕ}
    (hfree : s.Free image entries frame) (hbelow : ∀ g < frame, ¬s.Free image entries g) :
    (pmmAllocFrame s.pmm).2 = frame * frameSize := by
  have hspec := h.allocFrame
  have hne : (pmmAllocFrame s.pmm).2 ≠ 0 :=
    fun h0 => hspec.zero_iff.mp h0 ⟨frame, hfree, trivial⟩
  have hle := hspec.lowest frame hfree trivial
  have hge : ¬(pmmAllocFrame s.pmm).2 / frameSize < frame :=
    fun hlt => hbelow _ hlt (hspec.free hne)
  have hmod := hspec.aligned
  simp only [frameSize] at *
  omega

/-! ## The invariant -/

/-- Setting the bit of a free frame makes it outstanding. -/
theorem PmmState.Ok.take (h : s.Ok image entries) {f : ℕ} (hf : s.Free image entries f) :
    PmmState.Ok image entries ⟨bitmapSet s.pmm f, insert (f * frameSize) s.outstanding⟩ := by
  have hlt : f < s.pmm.totalFrames := h.total ▸ hf.1.lt
  refine ⟨by rw [totalFrames_bitmapSet, h.total], fun g => ?_, fun a ha => ?_⟩
  · rw [bitmapTest_bitmapSet hlt, PmmState.Free]
    by_cases hgf : g = f
    · simp [hgf]
    · have hmul : g * frameSize ≠ f * frameSize :=
        fun he => hgf (Nat.mul_right_cancel (by decide) he)
      rw [if_neg hgf, h.free_iff g, PmmState.Free, Finset.mem_insert, not_or]
      exact ⟨fun hg => ⟨hg.1, hmul, hg.2⟩, fun hg => ⟨hg.1, hg.2.2⟩⟩
  · rcases Finset.mem_insert.mp ha with rfl | ha
    · exact ⟨f, rfl, hf.1⟩
    · exact h.outstanding a ha

/-- Clearing the bit of an outstanding frame makes it free. -/
theorem PmmState.Ok.release (h : s.Ok image entries) {a : ℕ} (ha : a ∈ s.outstanding) :
    PmmState.Ok image entries ⟨pmmFreeFrame s.pmm a, s.outstanding.erase a⟩ := by
  obtain ⟨f, rfl, hboot⟩ := h.outstanding a ha
  have hlt : f < s.pmm.totalFrames := h.total ▸ hboot.lt
  rw [pmmFreeFrame, Nat.mul_div_cancel _ (by decide)]
  refine ⟨by rw [totalFrames_bitmapClear, h.total], fun g => ?_, fun b hb => ?_⟩
  · rw [bitmapTest_bitmapClear hlt, PmmState.Free]
    by_cases hgf : g = f
    · simp [hgf, hboot]
    · have hmul : g * frameSize ≠ f * frameSize :=
        fun he => hgf (Nat.mul_right_cancel (by decide) he)
      rw [if_neg hgf, h.free_iff g, PmmState.Free, Finset.mem_erase]
      exact ⟨fun hg => ⟨hg.1, fun hm => hg.2 hm.2⟩, fun hg => ⟨hg.1, fun hm => hg.2 ⟨hmul, hm⟩⟩⟩
  · exact h.outstanding b (Finset.mem_of_mem_erase hb)

/-- An allocation keeps the invariant, whether it succeeds or not. -/
theorem PmmState.Ok.grant (h : s.Ok image entries) (maxFrame : ℕ) :
    (s.grant (pmmAllocBelow s.pmm maxFrame)).Ok image entries := by
  rcases pmmAllocBelow_cases s.pmm maxFrame with ⟨heq, -⟩ | ⟨f, -, hclear, -, heq⟩
  · rw [heq]
    exact h
  · have hfree := (h.free_iff f).mp hclear
    rw [heq, PmmState.grant, if_neg hfree.1.ne_zero]
    exact h.take hfree

theorem PmmState.Ok.step (h : s.Ok image entries) {op : PmmOp}
    (hop : ∀ physAddr, op = .freeFrame physAddr → physAddr ∈ s.outstanding) :
    (pmmStep s op).Ok image entries := by
  cases op with
  | allocFrame => exact h.grant _
  | allocFrameLow maxPhysAddr => exact h.grant _
  | freeFrame physAddr => exact h.release (hop physAddr rfl)

theorem PmmState.Ok.run {ops : List PmmOp} :
    ∀ {s : PmmState}, s.Ok image entries → Disciplined s ops → (pmmRun s ops).Ok image entries := by
  induction ops with
  | nil => exact fun h _ => h
  | cons op ops ih => exact fun h hd => ih (h.step hd.1) hd.2

end

/-- The state after `pmm_init`. -/
theorem pmmInit_ok (image : KernelImage) {mb : Block} {tags : List Tag} (h : WellFormed mb tags)
    (hsum : SumsFit (mmapEntries tags)) {fuel : ℕ} (hfuel : mbTotalSize mb ≤ fuel) :
    ∃ p, pmmInit image mb fuel = some p ∧
      PmmState.Ok image (mmapEntries tags) ⟨p, ∅⟩ := by
  obtain ⟨p, hp, htotal, hfree⟩ := pmmInit_spec image h hsum.available hfuel
  refine ⟨p, hp, htotal, fun f => ?_, by simp⟩
  rw [hfree, PmmState.Free]
  simp

/-- A block with one AVAILABLE entry of one and a half frames from 2 MiB on. -/
def oddBlock : Block := fun offset =>
  [56, 0, 0, 0, 0, 0, 0, 0,
    6, 0, 0, 0, 40, 0, 0, 0, 24, 0, 0, 0, 0, 0, 0, 0,
    0, 0, 0x20, 0, 0, 0, 0, 0, 0, 0x18, 0, 0, 0, 0, 0, 0, 1, 0, 0, 0, 0, 0, 0, 0,
    0, 0, 0, 0, 8, 0, 0, 0].getD offset 0

/-- Its tags. -/
def oddTags : List Tag := [.mmap 24 [⟨0x200000, 0x1800, 1⟩]]

/-- A kernel from 1 MiB to 2 MiB. -/
def kernelAt1M : KernelImage := ⟨0x100000, 0x200000, by decide, by decide⟩

theorem oddBlock_wellFormed : WellFormed oddBlock oddTags := by
  refine ⟨⟨by decide, by decide, by decide, by decide, ?_⟩, by decide, by decide⟩
  rintro k hk
  obtain rfl : k = 0 := by simpa using hk
  exact (by decide : readEntry oddBlock (8 + 16 + 24 * 0) = ⟨0x200000, 0x1800, 1⟩)

theorem oddBlock_sumsFit : SumsFit (mmapEntries oddTags) := by
  simp [SumsFit, mmapEntries, oddTags, Tag.entries]

/-- The two frames of the entry are free, and no others. -/
theorem oddBlock_bootFree {frame : ℕ} :
    BootFree kernelAt1M (mmapEntries oddTags) frame ↔ frame = 0x200 ∨ frame = 0x201 := by
  have hend : usableEnd (mmapEntries oddTags) = 16 * 1024 * 1024 := by decide
  constructor
  · rintro h
    obtain ⟨entry, hmem, -, byte, hle, hlt, hbyte⟩ := h.available
    obtain rfl : entry = ⟨0x200000, 0x1800, 1⟩ := by
      simpa [mmapEntries, oddTags, Tag.entries] using hmem
    simp only [frameSize] at *
    omega
  · intro h
    refine ⟨?_, ?_, ?_, ⟨0x200000, 0x1800, 1⟩, by simp [mmapEntries, oddTags, Tag.entries], rfl,
      frame * frameSize, ?_, ?_, Nat.mul_div_cancel _ (by decide)⟩
    · rw [hend]
      rcases h with rfl | rfl <;> decide
    · rcases h with rfl | rfl <;> decide
    · rintro ⟨byte, -, hlt, hbyte⟩
      simp only [frameSize, kernelAt1M] at *
      omega
    · rcases h with rfl | rfl <;> decide
    · rcases h with rfl | rfl <;> decide

/-- The second of them is allocated only while the first is outstanding. -/
theorem pmmAllocFrame_oddBlock {s : PmmState} (h : s.Ok kernelAt1M (mmapEntries oddTags))
    {frame : ℕ} (hframe : frame = 0x200 ∨ frame = 0x201 ∧ 0x200 * frameSize ∈ s.outstanding)
    (hfree : frame * frameSize ∉ s.outstanding) :
    (pmmAllocFrame s.pmm).2 = frame * frameSize := by
  refine pmmAllocFrame_eq h ⟨oddBlock_bootFree.mpr (hframe.imp_right And.left), hfree⟩ ?_
  rintro g hg ⟨hboot, hg'⟩
  rcases hframe with rfl | ⟨rfl, hfirst⟩
  · have := oddBlock_bootFree.mp hboot
    omega
  · obtain rfl : g = 0x200 := by
      have := oddBlock_bootFree.mp hboot
      omega
    exact hg' hfirst

/-- Both frames are taken, and the first is put back. -/
def takeTwo : List PmmOp := [.allocFrame, .allocFrame, .freeFrame 0x200000]

theorem takeTwo_run {p : Pmm} (h : PmmState.Ok kernelAt1M (mmapEntries oddTags) ⟨p, ∅⟩) :
    Disciplined ⟨p, ∅⟩ takeTwo ∧ (pmmRun ⟨p, ∅⟩ takeTwo).outstanding = {0x201000} := by
  have hone : (pmmStep ⟨p, ∅⟩ .allocFrame).outstanding = {0x200000} := by
    rw [pmmStep, PmmState.grant,
      pmmAllocFrame_oddBlock h (Or.inl rfl) (Finset.notMem_empty (0x200 * frameSize)),
      if_neg (by decide)]
    rfl
  have hok : (pmmStep ⟨p, ∅⟩ .allocFrame).Ok kernelAt1M (mmapEntries oddTags) := h.grant _
  have htwo : (pmmStep (pmmStep ⟨p, ∅⟩ .allocFrame) .allocFrame).outstanding =
      {0x201000, 0x200000} := by
    have hfirst : 0x200 * frameSize ∈ (pmmStep ⟨p, ∅⟩ .allocFrame).outstanding := by
      rw [hone]
      decide
    have hsecond : 0x201 * frameSize ∉ (pmmStep ⟨p, ∅⟩ .allocFrame).outstanding := by
      rw [hone]
      decide
    rw [pmmStep, PmmState.grant, pmmAllocFrame_oddBlock hok (Or.inr ⟨rfl, hfirst⟩) hsecond,
      if_neg (by decide), hone]
    rfl
  refine ⟨⟨fun _ hop => (by cases hop), fun _ hop => (by cases hop), fun physAddr hop => ?_,
    trivial⟩, ?_⟩
  · obtain rfl := PmmOp.freeFrame.inj hop
    rw [htwo]
    decide
  · change Finset.erase (pmmStep (pmmStep ⟨p, ∅⟩ .allocFrame) .allocFrame).outstanding _ = _
    rw [htwo]
    decide

/-- **Allocations never collide, and fail only when nothing eligible is free**, after any history
that frees what it was given. The frames in use are those that are held or were never free. -/
theorem pmmRun_allocSpec (image : KernelImage) (mb : Block) (tags : List Tag)
    (h : WellFormed mb tags) (hsum : SumsFit (mmapEntries tags)) (fuel : ℕ)
    (hfuel : mbTotalSize mb ≤ fuel) :
    ∃ p, pmmInit image mb fuel = some p ∧ ∀ ops, Disciplined ⟨p, ∅⟩ ops →
      let s := pmmRun ⟨p, ∅⟩ ops
      (∀ frame, bitmapTest s.pmm frame = false ↔ s.Free image (mmapEntries tags) frame) ∧
        AllocSpec image (mmapEntries tags) s (fun _ => True) (pmmAllocFrame s.pmm) ∧
        ∀ maxPhysAddr, AllocSpec image (mmapEntries tags) s
          (fun frame => (frame + 1) * frameSize ≤ maxPhysAddr)
          (pmmAllocFrameLow s.pmm maxPhysAddr) := by
  obtain ⟨p, hp, hok⟩ := pmmInit_ok image h hsum hfuel
  refine ⟨p, hp, fun ops hops => ?_⟩
  have hs := hok.run hops
  exact ⟨hs.free_iff, hs.allocFrame, hs.allocFrameLow⟩

/-- The frame that was put back is the next one. -/
theorem pmmRun_allocSpec_oddBlock :
    ∃ p, pmmInit kernelAt1M oddBlock 56 = some p ∧
      (pmmAllocFrame (pmmRun ⟨p, ∅⟩ takeTwo).pmm).2 = 0x200000 := by
  obtain ⟨p, hp, hspec⟩ := pmmRun_allocSpec kernelAt1M oddBlock oddTags oddBlock_wellFormed
    oddBlock_sumsFit 56 (by decide)
  obtain ⟨p', hp', hok⟩ := pmmInit_ok kernelAt1M oddBlock_wellFormed oddBlock_sumsFit
    (by decide : mbTotalSize oddBlock ≤ 56)
  obtain rfl := Option.some.inj (hp.symm.trans hp')
  obtain ⟨hops, hout⟩ := takeTwo_run hok
  obtain ⟨-, hspec, -⟩ := hspec takeTwo hops
  have hfirst : PmmState.Free kernelAt1M (mmapEntries oddTags) (pmmRun ⟨p, ∅⟩ takeTwo) 0x200 := by
    refine ⟨oddBlock_bootFree.mpr (Or.inl rfl), ?_⟩
    rw [hout]
    decide
  have hne : (pmmAllocFrame (pmmRun ⟨p, ∅⟩ takeTwo).pmm).2 ≠ 0 :=
    fun h0 => hspec.zero_iff.mp h0 ⟨0x200, hfirst, trivial⟩
  have hle := hspec.lowest 0x200 hfirst trivial
  have hboot := oddBlock_bootFree.mp (hspec.free hne).1
  have haligned := hspec.aligned
  refine ⟨p, hp, ?_⟩
  simp only [frameSize] at *
  omega

/-! ## Which frames can be returned -/

/-- Some history after `pmm_init` ends with an allocation of the frame. Histories that allocate
everything else first are among these, so a frame that is free can be returned. -/
def CanReturn (p : Pmm) (frame : ℕ) : Prop :=
  frame * frameSize ≠ 0 ∧ ∃ ops, Disciplined ⟨p, ∅⟩ ops ∧
    ((pmmAllocFrame (pmmRun ⟨p, ∅⟩ ops).pmm).2 = frame * frameSize ∨
      ∃ maxPhysAddr,
        (pmmAllocFrameLow (pmmRun ⟨p, ∅⟩ ops).pmm maxPhysAddr).2 = frame * frameSize)

section

variable {image : KernelImage} {entries : List MmapEntry} {p : Pmm}

/-- Allocating often enough makes exactly the free frames below a bound
outstanding. -/
theorem exists_run_below (h : PmmState.Ok image entries ⟨p, ∅⟩) (bound : ℕ) :
    ∃ ops, Disciplined ⟨p, ∅⟩ ops ∧ ∀ frame,
      frame * frameSize ∈ (pmmRun ⟨p, ∅⟩ ops).outstanding ↔
        frame < bound ∧ BootFree image entries frame := by
  induction bound with
  | zero => exact ⟨[], trivial, fun frame => by simp [pmmRun]⟩
  | succ bound ih =>
    obtain ⟨ops, hops, hout⟩ := ih
    set s := pmmRun ⟨p, ∅⟩ ops with hs
    by_cases hboot : BootFree image entries bound
    · -- the frame `bound` is the lowest free one, so the next allocation returns it
      have heq : (pmmAllocFrame s.pmm).2 = bound * frameSize :=
        pmmAllocFrame_eq (h.run hops)
          ⟨hboot, fun hm => Nat.lt_irrefl _ ((hout bound).mp hm).1⟩
          fun g hlt hfree => hfree.2 ((hout g).mpr ⟨hlt, hfree.1⟩)
      refine ⟨ops ++ [.allocFrame], disciplined_append.mpr ⟨hops, by simp [Disciplined]⟩,
        fun frame => ?_⟩
      have hrun : (pmmRun ⟨p, ∅⟩ (ops ++ [.allocFrame])).outstanding =
          insert (bound * frameSize) s.outstanding := by
        rw [pmmRun, List.foldl_append]
        change (s.grant (pmmAllocFrame s.pmm)).outstanding = _
        rw [PmmState.grant, heq, if_neg hboot.ne_zero]
      rw [hrun, Finset.mem_insert, hout]
      constructor
      · rintro (heq | ⟨hlt, hb⟩)
        · obtain rfl := Nat.mul_right_cancel (by decide) heq
          exact ⟨Nat.lt_succ_self _, hboot⟩
        · exact ⟨Nat.lt_succ_of_lt hlt, hb⟩
      · rintro ⟨hlt, hb⟩
        rcases Nat.lt_succ_iff_lt_or_eq.mp hlt with hlt | rfl
        · exact Or.inr ⟨hlt, hb⟩
        · exact Or.inl rfl
    · refine ⟨ops, hops, fun frame => ?_⟩
      rw [hout]
      constructor
      · rintro ⟨hlt, hb⟩
        exact ⟨Nat.lt_succ_of_lt hlt, hb⟩
      · rintro ⟨hlt, hb⟩
        refine ⟨Nat.lt_of_le_of_ne (Nat.le_of_lt_succ hlt) ?_, hb⟩
        rintro rfl
        exact hboot hb

/-- The frames that can be returned are those that are free after `pmm_init`. -/
theorem canReturn_iff (h : PmmState.Ok image entries ⟨p, ∅⟩) {frame : ℕ} :
    CanReturn p frame ↔ BootFree image entries frame := by
  have hdiv : frame * frameSize / frameSize = frame := Nat.mul_div_cancel _ (by decide)
  constructor
  · rintro ⟨hne, ops, hops, hret | ⟨maxPhysAddr, hret⟩⟩
    · have hfree := (h.run hops).allocFrame.free (hret ▸ hne)
      rw [hret, hdiv] at hfree
      exact hfree.1
    · have hfree := ((h.run hops).allocFrameLow maxPhysAddr).free (hret ▸ hne)
      rw [hret, hdiv] at hfree
      exact hfree.1
  · intro hboot
    obtain ⟨ops, hops, hout⟩ := exists_run_below h frame
    exact ⟨hboot.ne_zero, ops, hops, Or.inl (pmmAllocFrame_eq (h.run hops)
      ⟨hboot, fun hm => Nat.lt_irrefl _ ((hout frame).mp hm).1⟩
      fun g hlt hfree => hfree.2 ((hout g).mpr ⟨hlt, hfree.1⟩))⟩

end

/-! ## Frames that are only partly RAM

`mark_region` rounds outward, so an AVAILABLE entry also frees the rest of the
frames at its two ends. -/

/-- Every byte of the frame is in an AVAILABLE entry, possibly each in another one. It is what a
caller who writes to the whole frame has to be able to rely on. -/
def FrameAvailable (entries : List MmapEntry) (frame : ℕ) : Prop :=
  ∀ byte, byte / frameSize = frame → ∃ entry ∈ entries,
    entry.IsAvailable ∧ entry.addr ≤ byte ∧ byte < entry.addr + entry.len

/-- A frame at the end of an entry does no harm if it is not managed, reserved,
or covered by the entries together. -/
def EdgeCovered (image : KernelImage) (entries : List MmapEntry) (frame : ℕ) : Prop :=
  usableEnd entries < (frame + 1) * frameSize ∨ frame * frameSize < 2 ^ 20 ∨
    Touches image.kernelStart image.kernelEnd frame ∨ FrameAvailable entries frame

/-- The frames of the first and of the last byte (below 1 GiB) of every AVAILABLE entry are
covered. Only these can be in part outside of RAM, as all frames between them are inside the
entry. -/
def EdgesCovered (image : KernelImage) (entries : List MmapEntry) : Prop :=
  ∀ entry ∈ entries, entry.IsAvailable → 0 < entry.len → entry.addr < pmmMaxMemory →
    EdgeCovered image entries (entry.addr / frameSize) ∧
      EdgeCovered image entries
        ((min (entry.addr + entry.len) pmmMaxMemory - 1) / frameSize)

theorem usableEnd_le (entries : List MmapEntry) : usableEnd entries ≤ pmmMaxMemory :=
  min_le_left _ _

/-- A covered edge that is free is RAM. -/
theorem EdgeCovered.available {image : KernelImage} {entries : List MmapEntry} {frame : ℕ}
    (h : EdgeCovered image entries frame) (hb : BootFree image entries frame) :
    FrameAvailable entries frame := by
  rcases h with h | h | h | h
  · exact absurd hb.managed (Nat.not_le.mpr h)
  · exact absurd hb.above (Nat.not_le.mpr h)
  · exact absurd h hb.kernel
  · exact h

/-- And the other way round. -/
theorem edgeCovered_of {image : KernelImage} {entries : List MmapEntry} {frame : ℕ}
    (htouch : ∃ entry ∈ entries, entry.IsAvailable ∧
      Touches entry.addr (entry.addr + entry.len) frame)
    (h : BootFree image entries frame → FrameAvailable entries frame) :
    EdgeCovered image entries frame := by
  by_cases hm : (frame + 1) * frameSize ≤ usableEnd entries
  · by_cases ha : 2 ^ 20 ≤ frame * frameSize
    · by_cases hk : Touches image.kernelStart image.kernelEnd frame
      · exact Or.inr (Or.inr (Or.inl hk))
      · exact Or.inr (Or.inr (Or.inr (h ⟨hm, ha, hk, htouch⟩)))
    · exact Or.inr (Or.inl (Nat.not_le.mp ha))
  · exact Or.inl (Nat.not_le.mp hm)

/-- The free frames are RAM exactly when the edges are covered. -/
theorem bootFree_available_iff (image : KernelImage) (entries : List MmapEntry) :
    (∀ frame, BootFree image entries frame → FrameAvailable entries frame) ↔
      EdgesCovered image entries := by
  constructor
  · intro h entry hmem havail hlen haddr
    refine ⟨edgeCovered_of ⟨entry, hmem, havail, entry.addr, le_rfl, by omega, rfl⟩ (h _),
      edgeCovered_of ⟨entry, hmem, havail, _, ?_, ?_, rfl⟩ (h _)⟩
    · omega
    · omega
  · rintro h frame hboot
    obtain ⟨entry, hmem, havail, byte, hlow, hhigh, hbyte⟩ := hboot.available
    have hend := hboot.managed.trans (usableEnd_le entries)
    have hedges := h entry hmem havail (by omega) (by
      simp only [frameSize, pmmMaxMemory] at *
      omega)
    -- the frame is the first of the entry, its last, or wholly inside
    by_cases hfirst : entry.addr / frameSize = frame
    · exact (hfirst ▸ hedges.1).available hboot
    by_cases hlast : (min (entry.addr + entry.len) pmmMaxMemory - 1) / frameSize = frame
    · exact (hlast ▸ hedges.2).available hboot
    · intro b hb
      refine ⟨entry, hmem, havail, ?_, ?_⟩
      all_goals
        simp only [frameSize, pmmMaxMemory] at *
        omega

/-- **The allocator hands out whole frames of RAM exactly when the edges of the AVAILABLE entries
are covered.** A frame that is cut by an edge is freed whole. -/
theorem canReturn_available_iff (image : KernelImage) (mb : Block) (tags : List Tag)
    (h : WellFormed mb tags) (hsum : SumsFit (mmapEntries tags)) (fuel : ℕ)
    (hfuel : mbTotalSize mb ≤ fuel) :
    ∃ p, pmmInit image mb fuel = some p ∧
      ((∀ frame, CanReturn p frame → FrameAvailable (mmapEntries tags) frame) ↔
        EdgesCovered image (mmapEntries tags)) := by
  obtain ⟨p, hp, hok⟩ := pmmInit_ok image h hsum hfuel
  refine ⟨p, hp, ?_⟩
  rw [← bootFree_available_iff]
  exact ⟨fun hc frame hb => hc frame ((canReturn_iff hok).mpr hb),
    fun hb frame hc => hb frame ((canReturn_iff hok).mp hc)⟩

/-- The second frame of the odd entry is only half RAM, and can be returned. -/
theorem canReturn_half_frame :
    ∃ p, pmmInit kernelAt1M oddBlock 56 = some p ∧ CanReturn p 0x201 ∧
      ¬FrameAvailable (mmapEntries oddTags) 0x201 := by
  obtain ⟨p, hp, hok⟩ := pmmInit_ok kernelAt1M oddBlock_wellFormed oddBlock_sumsFit
    (by decide : mbTotalSize oddBlock ≤ 56)
  refine ⟨p, hp, (canReturn_iff hok).mpr (oddBlock_bootFree.mpr (Or.inr rfl)), fun hall => ?_⟩
  obtain ⟨entry, hmem, -, -, hlt⟩ := hall 0x201800 (by decide)
  obtain rfl : entry = ⟨0x200000, 0x1800, 1⟩ := by
    simpa [mmapEntries, oddTags, Tag.entries] using hmem
  exact absurd hlt (by decide)

/-- The condition, applied to the odd entry. -/
theorem canReturn_available_iff_oddBlock :
    ∃ p, pmmInit kernelAt1M oddBlock 56 = some p ∧
      ((∀ frame, CanReturn p frame → FrameAvailable (mmapEntries oddTags) frame) ↔
        EdgesCovered kernelAt1M (mmapEntries oddTags)) :=
  canReturn_available_iff kernelAt1M oddBlock oddTags oddBlock_wellFormed oddBlock_sumsFit 56
    (by decide)

end WaluOs
