import WaluOs.PmmCount

/-!
# Freeing what a failed allocation returned

An allocation that fails returns 0, and 0 is also the address of frame 0, which `pmm_init`
keeps in use like the rest of the first MiB. `pmm_free_frame` does not tell the two apart.

`PmmHistory` is the allocator with every value that it has returned. A legal history frees
only those, as often as it likes. The reserved frames stay in use, and 0 stays a failure,
exactly as long as 0 is not freed: every other value is the address of a frame that was free
once, so it is not reserved (`PmmHistory.Ok`).
-/

namespace WaluOs

/-- A frame of the first MiB or of the kernel image. -/
def Reserved (image : KernelImage) (frame : ℕ) : Prop :=
  frame * frameSize < 2 ^ 20 ∨ Touches image.kernelStart image.kernelEnd frame

/-- The allocator and the values that its allocations have returned, failures included. A caller
that does not look at the value passes a failure on to `pmm_free_frame`. -/
structure PmmHistory : Type where
  /-- the allocator -/
  pmm : Pmm
  /-- failures included -/
  returned : Finset ℕ

/-- Take in what an allocation returned. -/
def PmmHistory.record (s : PmmHistory) (r : Pmm × ℕ) : PmmHistory := ⟨r.1, insert r.2 s.returned⟩

/-- One call. -/
def PmmHistory.call (s : PmmHistory) : PmmOp → PmmHistory
  | .allocFrame => s.record (pmmAllocFrame s.pmm)
  | .allocFrameLow maxPhysAddr => s.record (pmmAllocFrameLow s.pmm maxPhysAddr)
  | .freeFrame physAddr => ⟨pmmFreeFrame s.pmm physAddr, s.returned⟩

/-- A history of calls, one after the other. -/
def PmmHistory.calls (s : PmmHistory) (ops : List PmmOp) : PmmHistory := ops.foldl call s

/-- Only values that an earlier allocation returned are freed. They may be freed more than once,
and the 0 of a failure is one of them. -/
def PmmHistory.Legal : PmmHistory → List PmmOp → Prop
  | _, [] => True
  | s, op :: ops =>
    (∀ physAddr, op = .freeFrame physAddr → physAddr ∈ s.returned) ∧ (s.call op).Legal ops

/-- A call that returns 0 has found no frame and changed nothing. Where it fails, 0 is the address
of a frame and an error at the same time. -/
structure ZeroFails (p : Pmm) : Prop where
  /-- `pmm_alloc_frame` -/
  frame : (pmmAllocFrame p).2 = 0 →
    (pmmAllocFrame p).1 = p ∧ ∀ f < p.totalFrames, bitmapTest p f = true
  /-- `pmm_alloc_frame_low` -/
  low : ∀ maxPhysAddr, (pmmAllocFrameLow p maxPhysAddr).2 = 0 →
    (pmmAllocFrameLow p maxPhysAddr).1 = p ∧
      ∀ f < maxPhysAddr / frameSize, bitmapTest p f = true

/-- No reserved frame can be allocated, and 0 is a failure. It is what `pmm_init` sets up and what
callers rely on for good. -/
structure ReservesKept (image : KernelImage) (p : Pmm) : Prop where
  /-- the bits of the reserved frames are set -/
  reserved : ∀ frame, Reserved image frame → bitmapTest p frame = true
  /-- 0 -/
  zero : ZeroFails p

/-! ## The invariant -/

/-- What a history without a free of 0 keeps. -/
structure PmmHistory.Ok (image : KernelImage) (s : PmmHistory) : Prop where
  /-- frame 0 is managed -/
  managed : 0 < s.pmm.totalFrames
  /-- the bits of the reserved frames are set -/
  reserved : ∀ frame, Reserved image frame → bitmapTest s.pmm frame = true
  /-- what was returned was not reserved -/
  returned : ∀ physAddr ∈ s.returned, physAddr ≠ 0 → ¬Reserved image (physAddr / frameSize)

variable {image : KernelImage}

theorem reserved_zero (image : KernelImage) : Reserved image 0 := Or.inl (by decide)

theorem bitmapTest_of_le {p : Pmm} {frame : ℕ} (h : p.totalFrames ≤ frame) :
    bitmapTest p frame = true := by
  rw [bitmapTest, if_pos h]

/-- Setting a bit sets no other one back. -/
theorem bitmapSet_reserved {p : Pmm} (h : ∀ frame, Reserved image frame → bitmapTest p frame = true)
    (f frame : ℕ) (hframe : Reserved image frame) : bitmapTest (bitmapSet p f) frame = true := by
  by_cases hf : f < p.totalFrames
  · rw [bitmapTest_bitmapSet hf]
    split
    · rfl
    · exact h frame hframe
  · rw [bitmapSet, if_pos (Nat.not_lt.mp hf)]
    exact h frame hframe

/-- Clearing the bit of a frame that is not reserved leaves the reserved ones alone. -/
theorem bitmapClear_reserved {p : Pmm}
    (h : ∀ frame, Reserved image frame → bitmapTest p frame = true) {f : ℕ}
    (hf : ¬Reserved image f) (frame : ℕ) (hframe : Reserved image frame) :
    bitmapTest (bitmapClear p f) frame = true := by
  have hne : frame ≠ f := by
    rintro rfl
    exact hf hframe
  by_cases hlt : f < p.totalFrames
  · rw [bitmapTest_bitmapClear hlt, if_neg hne]
    exact h frame hframe
  · rw [bitmapClear, if_pos (Nat.not_lt.mp hlt)]
    exact h frame hframe

theorem totalFrames_pmmAllocBelow (p : Pmm) (maxFrame : ℕ) :
    (pmmAllocBelow p maxFrame).1.totalFrames = p.totalFrames := by
  rcases pmmAllocBelow_cases p maxFrame with ⟨heq, -⟩ | ⟨f, -, -, -, heq⟩ <;> rw [heq]
  exact totalFrames_bitmapSet p f

/-- An allocation fails with 0 and leaves the state, or takes a frame that is not reserved. -/
theorem pmmAllocBelow_reserved {p : Pmm}
    (h : ∀ frame, Reserved image frame → bitmapTest p frame = true) (maxFrame : ℕ) :
    ((pmmAllocBelow p maxFrame).2 = 0 → (pmmAllocBelow p maxFrame).1 = p ∧
        ∀ f < maxFrame, bitmapTest p f = true) ∧
      ((pmmAllocBelow p maxFrame).2 ≠ 0 →
        ¬Reserved image ((pmmAllocBelow p maxFrame).2 / frameSize)) ∧
      ∀ frame, Reserved image frame → bitmapTest (pmmAllocBelow p maxFrame).1 frame = true := by
  rcases pmmAllocBelow_cases p maxFrame with ⟨heq, hnone⟩ | ⟨f, -, hclear, -, heq⟩ <;> rw [heq]
  · exact ⟨fun _ => ⟨rfl, hnone⟩, fun hne => absurd rfl hne, h⟩
  · have hf : ¬Reserved image f := by
      intro hreserved
      rw [h f hreserved] at hclear
      cases hclear
    refine ⟨fun h0 => ?_, fun _ => ?_, bitmapSet_reserved h f⟩
    · have hzero : f = 0 := (Nat.mul_eq_zero.mp h0).resolve_right (by decide)
      exact absurd (hzero ▸ reserved_zero image) hf
    · rwa [Nat.mul_div_cancel f (by decide)]

theorem PmmHistory.Ok.zeroFails {s : PmmHistory} (h : s.Ok image) : ZeroFails s.pmm := by
  refine ⟨(pmmAllocBelow_reserved h.reserved _).1, fun maxPhysAddr h0 => ?_⟩
  obtain ⟨hsame, hnone⟩ := (pmmAllocBelow_reserved h.reserved _).1 h0
  refine ⟨hsame, fun f hf => ?_⟩
  by_cases hmanaged : f < s.pmm.totalFrames
  · refine hnone f ?_
    split_ifs
    · exact hmanaged
    · exact hf
  · exact bitmapTest_of_le (Nat.not_lt.mp hmanaged)

theorem PmmHistory.Ok.record {s : PmmHistory} (h : s.Ok image) (maxFrame : ℕ) :
    (s.record (pmmAllocBelow s.pmm maxFrame)).Ok image := by
  obtain ⟨-, hfresh, hreserved⟩ := pmmAllocBelow_reserved h.reserved maxFrame
  have hmanaged : 0 < (pmmAllocBelow s.pmm maxFrame).1.totalFrames := by
    rw [totalFrames_pmmAllocBelow]
    exact h.managed
  refine ⟨hmanaged, hreserved, fun physAddr hmem hne => ?_⟩
  rcases Finset.mem_insert.mp hmem with rfl | hmem
  · exact hfresh hne
  · exact h.returned physAddr hmem hne

/-- One call, if it is not a free of 0. -/
theorem PmmHistory.Ok.call {s : PmmHistory} (h : s.Ok image) {op : PmmOp}
    (hlegal : ∀ physAddr, op = .freeFrame physAddr → physAddr ∈ s.returned)
    (hop : op ≠ .freeFrame 0) : (s.call op).Ok image := by
  cases op with
  | allocFrame => exact h.record _
  | allocFrameLow maxPhysAddr => exact h.record _
  | freeFrame physAddr =>
    have hne : physAddr ≠ 0 := by
      rintro rfl
      exact hop rfl
    have hfree := h.returned physAddr (hlegal physAddr rfl) hne
    have hmanaged : 0 < (pmmFreeFrame s.pmm physAddr).totalFrames := by
      rw [pmmFreeFrame, totalFrames_bitmapClear]
      exact h.managed
    exact ⟨hmanaged, bitmapClear_reserved h.reserved hfree, h.returned⟩

/-- And any number of them. -/
theorem PmmHistory.Ok.calls {ops : List PmmOp} : ∀ {s : PmmHistory}, s.Ok image → s.Legal ops →
    PmmOp.freeFrame 0 ∉ ops → (s.calls ops).Ok image := by
  induction ops with
  | nil => exact fun h _ _ => h
  | cons op ops ih =>
    intro s h hlegal hzero
    obtain ⟨hop, hops⟩ := not_or.mp (mt List.mem_cons.mpr hzero)
    exact ih (h.call hlegal.1 (Ne.symm hop)) hlegal.2 hops

theorem PmmHistory.Legal.prefix {xs ys : List PmmOp} :
    ∀ {s : PmmHistory}, s.Legal (xs ++ ys) → s.Legal xs := by
  induction xs with
  | nil => exact fun _ => trivial
  | cons op xs ih => exact fun h => ⟨h.1, ih h.2⟩

/-! ## After `pmm_init` -/

/-- `pmm_init` manages at least one frame. -/
theorem pmmReset_totalFrames_pos (highest : ℕ) : 0 < (pmmReset highest).totalFrames := by
  have hpos : ∀ n, 0 < if n = 0 then 1 else n := by
    intro n
    split_ifs <;> omega
  exact hpos _

theorem pmmInit_reserved {mb : Block} {fuel : ℕ} {p : Pmm} (h : pmmInit image mb fuel = some p) :
    PmmHistory.Ok image ⟨p, ∅⟩ := by
  obtain ⟨highest, q, -, -, rfl, hq⟩ := pmmInit_keeps h
  obtain ⟨hcounted, hsame⟩ := hq (pmmReset_counted highest)
  obtain ⟨htotal, hbits⟩ := pmmReserve_spec image q hcounted.total_le
  refine ⟨?_, fun frame hframe => ?_, fun physAddr hmem => absurd hmem (Finset.notMem_empty _)⟩
  · rw [htotal, hsame.total]
    exact pmmReset_totalFrames_pos highest
  · by_cases hlt : frame < q.totalFrames
    · rw [bitmapTest, htotal, if_neg (Nat.not_le.mpr hlt), ← Bool.not_eq_false, hbits frame hlt]
      rintro ⟨habove, hkernel, -⟩
      rcases hframe with hlow | htouch
      · exact Nat.not_lt.mpr habove hlow
      · exact hkernel htouch
    · exact bitmapTest_of_le (htotal ▸ Nat.not_lt.mp hlt)

theorem PmmHistory.calls_concat (s : PmmHistory) (ops : List PmmOp) (op : PmmOp) :
    s.calls (ops ++ [op]) = (s.calls ops).call op := by
  rw [PmmHistory.calls, List.foldl_append]
  rfl

/-- A free of 0 makes frame 0 allocatable. -/
theorem freeFrame_zero {s : PmmHistory} (h : 0 < s.pmm.totalFrames) :
    bitmapTest (s.call (.freeFrame 0)).pmm 0 = false := by
  have hclear := bitmapTest_bitmapClear h 0
  rwa [if_pos rfl] at hclear

/-- An allocation that takes frame 0 returns 0, and has changed the state. -/
theorem pmmAllocFrame_zero {p : Pmm} (h : 0 < p.totalFrames) (hclear : bitmapTest p 0 = false) :
    (pmmAllocFrame p).2 = 0 ∧ (pmmAllocFrame p).1 ≠ p := by
  rw [pmmAllocFrame]
  rcases pmmAllocBelow_cases p p.totalFrames with ⟨-, hnone⟩ | ⟨f, -, -, hbelow, heq⟩
  · rw [hnone 0 h] at hclear
    cases hclear
  · have hzero : f = 0 := by
      by_contra hne
      rw [hbelow 0 (Nat.pos_of_ne_zero hne)] at hclear
      cases hclear
    subst hzero
    rw [heq]
    refine ⟨Nat.zero_mul _, fun hsame : bitmapSet p 0 = p => ?_⟩
    have hset := bitmapTest_bitmapSet h 0
    rw [if_pos rfl, hsame, hclear] at hset
    cases hset

/-- **The reserve is kept** along a legal history exactly when it frees no 0. That is what a
failed allocation returns, and a client that frees it opens frame 0. -/
theorem reservesKept_iff {mb : Block} {fuel : ℕ} {p : Pmm} (hp : pmmInit image mb fuel = some p)
    {ops : List PmmOp} (hops : PmmHistory.Legal ⟨p, ∅⟩ ops) :
    (∀ before, before <+: ops → ReservesKept image (PmmHistory.calls ⟨p, ∅⟩ before).pmm) ↔
      PmmOp.freeFrame 0 ∉ ops := by
  have hok := pmmInit_reserved hp
  constructor
  · intro h hmem
    obtain ⟨before, after, rfl, hbefore⟩ := List.eq_append_cons_of_mem hmem
    have hrun : (PmmHistory.calls ⟨p, ∅⟩ before).Ok image :=
      hok.calls hops.prefix hbefore
    have hkept := h (before ++ [.freeFrame 0]) ⟨after, by simp⟩
    have hset := hkept.reserved 0 (reserved_zero image)
    rw [PmmHistory.calls_concat, freeFrame_zero hrun.managed] at hset
    cases hset
  · rintro hzero before ⟨after, rfl⟩
    have hrun : (PmmHistory.calls ⟨p, ∅⟩ before).Ok image :=
      hok.calls hops.prefix fun hmem => hzero (List.mem_append_left _ hmem)
    exact ⟨hrun.reserved, hrun.zeroFails⟩

/-- A frame is allocated and freed twice on the block with the odd entry. -/
theorem reservesKept_iff_oddBlock :
    ∃ p, pmmInit kernelAt1M oddBlock 56 = some p ∧ ∀ physAddr, physAddr = (pmmAllocFrame p).2 →
      ((∀ before, before <+: [.allocFrame, .freeFrame physAddr, .freeFrame physAddr] →
          ReservesKept kernelAt1M (PmmHistory.calls ⟨p, ∅⟩ before).pmm) ↔
        PmmOp.freeFrame 0 ∉ [.allocFrame, .freeFrame physAddr, .freeFrame physAddr]) := by
  obtain ⟨p, hp, -⟩ := pmmInit_spec kernelAt1M oddBlock_wellFormed oddBlock_sumsFit.available
    (by decide : mbTotalSize oddBlock ≤ 56)
  refine ⟨p, hp, ?_⟩
  rintro physAddr rfl
  refine reservesKept_iff hp ⟨by simp, ?_, ?_, trivial⟩
  · rintro physAddr ⟨⟩
    exact Finset.mem_insert_self _ _
  · rintro physAddr ⟨⟩
    exact Finset.mem_insert_self _ _

/-- An allocation below 0 fails, and its result is freed: now frame 0 is allocated, which
looks like a failure. -/
theorem freed_zero_allocated :
    ∃ p, pmmInit kernelAt1M oddBlock 56 = some p ∧
      PmmHistory.Legal ⟨p, ∅⟩ [.allocFrameLow 0, .freeFrame 0] ∧
      ∀ s, s = (PmmHistory.calls ⟨p, ∅⟩ [.allocFrameLow 0, .freeFrame 0]).pmm →
        bitmapTest s 0 = false ∧ (pmmAllocFrame s).2 = 0 ∧ (pmmAllocFrame s).1 ≠ s := by
  obtain ⟨p, hp, -⟩ := pmmInit_spec kernelAt1M oddBlock_wellFormed oddBlock_sumsFit.available
    (by decide : mbTotalSize oddBlock ≤ 56)
  have hmanaged := (pmmInit_reserved hp).managed
  refine ⟨p, hp, ⟨by simp, ?_, trivial⟩, ?_⟩
  · rintro physAddr ⟨⟩
    exact Finset.mem_insert_self _ _
  · rintro s rfl
    have hclear : bitmapTest (PmmHistory.calls ⟨p, ∅⟩ [.allocFrameLow 0, .freeFrame 0]).pmm 0 =
        false := freeFrame_zero hmanaged
    refine ⟨hclear, pmmAllocFrame_zero ?_ hclear⟩
    change 0 < (bitmapClear p 0).totalFrames
    rwa [totalFrames_bitmapClear]

end WaluOs
