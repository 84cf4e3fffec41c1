import WaluOs.LeastPool
import WaluOs.Mealy
import WaluOs.PmmCount

/-!
# The allocator as a pool

The bitmap and its search are a pool of frames that gives out its least element: over every
history of calls that free what they were given, the allocator returns what the pool of the
frames that are free after `pmm_init` returns (`pmmRun_pool`).

So calls without a free in between return the free frames in ascending order, each of them
once, and then 0 (`pmmRun_drains`). And the allocator keeps no trace of its past: two
histories after which the same frames are in use leave the same bitmap and the same counter
(`pmmRun_forgets`).
-/

namespace WaluOs

open LeastPool

/-! ## The two machines -/

/-- A call, with what it returns. A list of results takes in both kinds of calls: a free returns
nothing. -/
def pmmCall (s : PmmState) : PmmOp → PmmState × List ℕ
  | .allocFrame => (pmmStep s .allocFrame, [(pmmAllocFrame s.pmm).2])
  | .allocFrameLow maxPhysAddr =>
    (pmmStep s (.allocFrameLow maxPhysAddr), [(pmmAllocFrameLow s.pmm maxPhysAddr).2])
  | .freeFrame physAddr => (pmmStep s (.freeFrame physAddr), [])

/-- The address of what a pool gives; 0 is a failure. -/
def frameAddr : Option ℕ → ℕ
  | none => 0
  | some frame => frame * frameSize

/-- The same call of a pool of frames. An allocation takes the least frame that is good for it,
and the pool is all the state there is: no bitmap and no counter. -/
def poolCall (pool : Finset ℕ) : PmmOp → Finset ℕ × List ℕ
  | .allocFrame => ((take pool fun _ => True).1, [frameAddr (take pool fun _ => True).2])
  | .allocFrameLow maxPhysAddr =>
    ((take pool fun frame => (frame + 1) * frameSize ≤ maxPhysAddr).1,
      [frameAddr (take pool fun frame => (frame + 1) * frameSize ≤ maxPhysAddr).2])
  | .freeFrame physAddr => (insert (physAddr / frameSize) pool, [])

theorem pmmCall_run (ops : List PmmOp) :
    ∀ s : PmmState, (Mealy.run pmmCall s ops).1 = pmmRun s ops := by
  induction ops with
  | nil => exact fun _ => rfl
  | cons op ops ih =>
    intro s
    rw [Mealy.run_cons]
    cases op <;> exact ih _

/-- The pool holds the frames that are free. -/
def Pools (pool : Finset ℕ) (p : Pmm) : Prop := ∀ frame, frame ∈ pool ↔ bitmapTest p frame = false

section

variable {image : KernelImage} {entries : List MmapEntry} {s : PmmState} {pool : Finset ℕ}

/-- The search finds what the pool gives, when its bound says which frames will do. -/
theorem Pools.grant (h : Pools pool s.pmm) (hok : s.Ok image entries) {p : ℕ → Prop}
    [DecidablePred p] {maxFrame : ℕ}
    (hmax : ∀ frame, s.Free image entries frame → (p frame ↔ frame < maxFrame)) :
    (pmmAllocBelow s.pmm maxFrame).2 = frameAddr (take pool p).2 ∧
      Pools (take pool p).1 (s.grant (pmmAllocBelow s.pmm maxFrame)).pmm := by
  have hwill : ∀ frame ∈ pool, (p frame ↔ frame < maxFrame) := fun frame hmem =>
    hmax frame ((hok.free_iff frame).mp ((h frame).mp hmem))
  rcases pmmAllocBelow_cases s.pmm maxFrame with ⟨heq, hall⟩ | ⟨f, hf, hclear, hfirst, heq⟩
  · have hnone : take pool p = (pool, none) := by
      refine take_of_none fun frame hmem hp => ?_
      have hset := hall frame ((hwill frame hmem).mp hp)
      rw [(h frame).mp hmem] at hset
      cases hset
    rw [heq, hnone]
    exact ⟨rfl, h⟩
  · have hmem := (h f).mpr hclear
    have hsome : take pool p = (pool.erase f, some f) := by
      refine take_of_some hmem ((hwill f hmem).mpr hf) fun g hg _ => ?_
      by_contra hlt
      have hset := hfirst g (Nat.not_le.mp hlt)
      rw [(h g).mp hg] at hset
      cases hset
    have hlt : f < s.pmm.totalFrames := hok.total ▸ ((hok.free_iff f).mp hclear).1.lt
    rw [heq, hsome]
    refine ⟨rfl, fun g => ?_⟩
    change g ∈ pool.erase f ↔ bitmapTest (bitmapSet s.pmm f) g = false
    rw [bitmapTest_bitmapSet hlt, Finset.mem_erase, h g]
    by_cases hgf : g = f
    · simp [hgf]
    · simp [hgf]

/-- What is freed is in the pool again. -/
theorem Pools.release (h : Pools pool s.pmm) (hok : s.Ok image entries) {a : ℕ}
    (ha : a ∈ s.outstanding) : Pools (insert (a / frameSize) pool) (pmmFreeFrame s.pmm a) := by
  obtain ⟨f, rfl, hboot⟩ := hok.outstanding a ha
  have hlt : f < s.pmm.totalFrames := hok.total ▸ hboot.lt
  intro g
  rw [pmmFreeFrame, Nat.mul_div_cancel _ (by decide), bitmapTest_bitmapClear hlt,
    Finset.mem_insert, h g]
  by_cases hgf : g = f
  · simp [hgf]
  · simp [hgf]

/-- One call. -/
theorem Pools.call (h : Pools pool s.pmm) (hok : s.Ok image entries) {op : PmmOp}
    (hop : ∀ physAddr, op = .freeFrame physAddr → physAddr ∈ s.outstanding) :
    (pmmCall s op).2 = (poolCall pool op).2 ∧ Pools (poolCall pool op).1 (pmmStep s op).pmm := by
  cases op with
  | allocFrame =>
    have hmax : ∀ frame, s.Free image entries frame → (True ↔ frame < s.pmm.totalFrames) :=
      fun frame hfree => ⟨fun _ => hok.total ▸ hfree.1.lt, fun _ => trivial⟩
    obtain ⟨hresult, hpool⟩ := h.grant hok hmax
    exact ⟨congrArg (fun a => [a]) hresult, hpool⟩
  | allocFrameLow maxPhysAddr =>
    have hmax : ∀ frame, s.Free image entries frame →
        ((frame + 1) * frameSize ≤ maxPhysAddr ↔
          frame < if maxPhysAddr / frameSize > s.pmm.totalFrames then s.pmm.totalFrames
            else maxPhysAddr / frameSize) := fun frame hfree => by
      have hlt : frame < s.pmm.totalFrames := hok.total ▸ hfree.1.lt
      simp only [frameSize]
      split_ifs <;> omega
    obtain ⟨hresult, hpool⟩ := h.grant hok hmax
    exact ⟨congrArg (fun a => [a]) hresult, hpool⟩
  | freeFrame physAddr => exact ⟨rfl, h.release hok (hop physAddr rfl)⟩

/-- A history. -/
theorem Pools.run (ops : List PmmOp) :
    ∀ {s : PmmState} {pool : Finset ℕ}, Pools pool s.pmm → s.Ok image entries →
      Disciplined s ops →
      (Mealy.run pmmCall s ops).2 = (Mealy.run poolCall pool ops).2 ∧
        Pools (Mealy.run poolCall pool ops).1 (pmmRun s ops).pmm := by
  induction ops with
  | nil => exact fun h _ _ => ⟨rfl, h⟩
  | cons op ops ih =>
    intro s pool h hok hd
    obtain ⟨hresult, hpool⟩ := h.call hok hd.1
    obtain ⟨hresults, hpools⟩ := ih hpool (hok.step hd.1) hd.2
    have hstep : (pmmCall s op).1 = pmmStep s op := by cases op <;> rfl
    rw [Mealy.run_cons, Mealy.run_cons]
    dsimp only
    rw [hstep, hresult, hresults]
    exact ⟨rfl, hpools⟩

/-- The frames that are free. -/
def freeFrames (p : Pmm) : Finset ℕ :=
  (Finset.range p.totalFrames).filter fun frame => bitmapTest p frame = false

theorem freeFrames_pools (p : Pmm) : Pools (freeFrames p) p := by
  intro frame
  rw [freeFrames, Finset.mem_filter, Finset.mem_range, and_iff_right_iff_imp]
  intro hclear
  by_contra hout
  rw [bitmapTest, if_pos (Nat.not_lt.mp hout)] at hclear
  cases hclear

theorem PmmState.Ok.mem_freeFrames (h : s.Ok image entries) (frame : ℕ) :
    frame ∈ freeFrames s.pmm ↔ s.Free image entries frame :=
  (freeFrames_pools s.pmm frame).trans (h.free_iff frame)

/-! ## One after the other -/

/-- Calls without a free take frames out of a pool. -/
theorem poolCall_drain (n : ℕ) : ∀ pool : Finset ℕ,
    (Mealy.run poolCall pool (List.replicate n .allocFrame)).2 =
      (drain n pool).map frameAddr := by
  induction n with
  | zero => exact fun _ => rfl
  | succ n ih =>
    intro pool
    rw [List.replicate_succ, Mealy.run_cons, drain, List.map_cons]
    exact congrArg (frameAddr (take pool fun _ => True).2 :: ·) (ih _)

theorem disciplined_allocs (n : ℕ) :
    ∀ s : PmmState, Disciplined s (List.replicate n .allocFrame) := by
  induction n with
  | zero => exact fun _ => trivial
  | succ n ih =>
    refine fun s => ⟨fun _ hop => ?_, ih _⟩
    cases hop

/-- They return the free frames in ascending order, and then 0. -/
theorem PmmState.Ok.drains (h : s.Ok image entries) (n : ℕ) :
    (Mealy.run pmmCall s (List.replicate n .allocFrame)).2 =
      ((freeFrames s.pmm).sort.take n).map (· * frameSize) ++
        List.replicate (n - (freeFrames s.pmm).card) 0 := by
  rw [((freeFrames_pools s.pmm).run _ h (disciplined_allocs n s)).1, poolCall_drain, drain_eq,
    List.map_append, List.map_map, List.map_replicate]
  rfl

/-! ## No trace of the past -/

/-- The bitmap and the counter follow from which frames are free. -/
theorem Pmm.eq_of_free {p q r : Pmm} (hp : p.Counted) (hq : q.Counted) (hrp : r.SameBeyond p)
    (hrq : r.SameBeyond q) (hfree : ∀ frame, bitmapTest p frame = false ↔
      bitmapTest q frame = false) : p = q := by
  have htotal : q.totalFrames = p.totalFrames := hrq.total.trans hrp.total.symm
  have hbits : p.frameBitmap = q.frameBitmap := by
    refine Bitmap.eq_of_test fun f => ?_
    by_cases hlt : f < p.totalFrames
    · have hf := hfree f
      rw [bitmapTest, bitmapTest, if_neg (Nat.not_le.mpr hlt), htotal,
        if_neg (Nat.not_le.mpr hlt)] at hf
      exact Bool.eq_iff_iff.mpr (by rw [← not_iff_not, Bool.not_eq_true, Bool.not_eq_true, hf])
    · have hge : f ≥ r.totalFrames := hrp.total ▸ Nat.not_lt.mp hlt
      exact (hrp.beyond f hge).trans (hrq.beyond f hge).symm
  have hused : p.usedFrames = q.usedFrames := by rw [hp.used, hq.used, hbits, htotal]
  obtain ⟨bitmap, total, used⟩ := p
  obtain ⟨bitmap', total', used'⟩ := q
  dsimp only at hbits htotal hused
  rw [hbits, htotal, hused]

end

/-! ## Results -/

section

variable (image : KernelImage) (mb : Block) (tags : List Tag) (h : WellFormed mb tags)
  (hsum : SumsFit (mmapEntries tags)) (fuel : ℕ) (hfuel : mbTotalSize mb ≤ fuel)

include h hsum hfuel

/-- **The allocator is a pool** of the frames that are free after `pmm_init`: whatever is
called, it returns what the pool does. -/
theorem pmmRun_pool :
    ∃ p pool, pmmInit image mb fuel = some p ∧
      (∀ frame, frame ∈ pool ↔ BootFree image (mmapEntries tags) frame) ∧
      ∀ ops, Disciplined ⟨p, ∅⟩ ops →
        (Mealy.run pmmCall ⟨p, ∅⟩ ops).2 = (Mealy.run poolCall pool ops).2 := by
  obtain ⟨p, hp, hok⟩ := pmmInit_ok image h hsum hfuel
  refine ⟨p, freeFrames p, hp, fun frame => ?_, fun ops hops =>
    ((freeFrames_pools p).run ops hok hops).1⟩
  rw [hok.mem_freeFrames frame, PmmState.Free, and_iff_left (Finset.notMem_empty _)]

/-- **The free frames come in ascending order**, each of them once, after any history; and then 0.
Each search begins at frame 0, so what was freed last has no advantage. -/
theorem pmmRun_drains :
    ∃ p, pmmInit image mb fuel = some p ∧ ∀ ops, Disciplined ⟨p, ∅⟩ ops →
      ∃ free : Finset ℕ,
        (∀ frame, frame ∈ free ↔ (pmmRun ⟨p, ∅⟩ ops).Free image (mmapEntries tags) frame) ∧
        ∀ n, (Mealy.run pmmCall (pmmRun ⟨p, ∅⟩ ops) (List.replicate n .allocFrame)).2 =
          (free.sort.take n).map (· * frameSize) ++ List.replicate (n - free.card) 0 := by
  obtain ⟨p, hp, hok⟩ := pmmInit_ok image h hsum hfuel
  refine ⟨p, hp, fun ops hops => ⟨freeFrames (pmmRun ⟨p, ∅⟩ ops).pmm,
    (hok.run hops).mem_freeFrames, (hok.run hops).drains⟩⟩

/-- **No trace of the past**: histories that leave the same frames in use leave the same
allocator, bit for bit, and one that frees all it was given leaves that of `pmm_init`. -/
theorem pmmRun_forgets :
    ∃ p, pmmInit image mb fuel = some p ∧
      (∀ xs ys, Disciplined ⟨p, ∅⟩ xs → Disciplined ⟨p, ∅⟩ ys →
        (pmmRun ⟨p, ∅⟩ xs).outstanding = (pmmRun ⟨p, ∅⟩ ys).outstanding →
          (pmmRun ⟨p, ∅⟩ xs).pmm = (pmmRun ⟨p, ∅⟩ ys).pmm) ∧
      ∀ xs, Disciplined ⟨p, ∅⟩ xs → (pmmRun ⟨p, ∅⟩ xs).outstanding = ∅ →
        (pmmRun ⟨p, ∅⟩ xs).pmm = p := by
  obtain ⟨p, hp, hok⟩ := pmmInit_ok image h hsum hfuel
  have hcounted := (pmmInit_counted hp).1
  have hsame : ∀ xs ys, Disciplined ⟨p, ∅⟩ xs → Disciplined ⟨p, ∅⟩ ys →
      (pmmRun ⟨p, ∅⟩ xs).outstanding = (pmmRun ⟨p, ∅⟩ ys).outstanding →
        (pmmRun ⟨p, ∅⟩ xs).pmm = (pmmRun ⟨p, ∅⟩ ys).pmm := by
    intro xs ys hxs hys hout
    obtain ⟨hx, hbx⟩ := pmmRun_keeps xs ⟨p, ∅⟩ hcounted
    obtain ⟨hy, hby⟩ := pmmRun_keeps ys ⟨p, ∅⟩ hcounted
    refine Pmm.eq_of_free hx hy hbx hby fun frame => ?_
    rw [(hok.run hxs).free_iff, (hok.run hys).free_iff, PmmState.Free, PmmState.Free, hout]
  exact ⟨p, hp, hsame, fun xs hxs hout => hsame xs [] hxs trivial hout⟩

end

/-! ## A block with two free frames -/

theorem pmmRun_pool_oddBlock :
    ∃ p pool, pmmInit kernelAt1M oddBlock 56 = some p ∧
      (Mealy.run pmmCall ⟨p, ∅⟩ [.allocFrameLow 0x201000, .allocFrame]).2 =
        (Mealy.run poolCall pool [.allocFrameLow 0x201000, .allocFrame]).2 := by
  obtain ⟨p, pool, hp, -, hrun⟩ := pmmRun_pool kernelAt1M oddBlock oddTags oddBlock_wellFormed
    oddBlock_sumsFit 56 (by decide)
  have hops : Disciplined ⟨p, ∅⟩ [.allocFrameLow 0x201000, .allocFrame] := by
    refine ⟨fun _ hop => ?_, fun _ hop => ?_, trivial⟩
    · cases hop
    · cases hop
  exact ⟨p, pool, hp, hrun _ hops⟩

theorem pmmRun_drains_oddBlock :
    ∃ p, pmmInit kernelAt1M oddBlock 56 = some p ∧ ∃ free : Finset ℕ, 0x201 ∈ free ∧
      (Mealy.run pmmCall ⟨p, ∅⟩ (List.replicate 3 .allocFrame)).2 =
        (free.sort.take 3).map (· * frameSize) ++ List.replicate (3 - free.card) 0 := by
  obtain ⟨p, hp, hrun⟩ := pmmRun_drains kernelAt1M oddBlock oddTags oddBlock_wellFormed
    oddBlock_sumsFit 56 (by decide)
  obtain ⟨free, hfree, hdrains⟩ := hrun [] trivial
  exact ⟨p, hp, free, (hfree _).mpr ⟨oddBlock_bootFree.mpr (Or.inr rfl), Finset.notMem_empty _⟩,
    hdrains 3⟩

/-- A frame is taken and put back. -/
theorem pmmRun_forgets_oddBlock :
    ∃ p, pmmInit kernelAt1M oddBlock 56 = some p ∧ (pmmAllocFrame p).2 ≠ 0 ∧
      (pmmRun ⟨p, ∅⟩ [.allocFrame, .freeFrame (pmmAllocFrame p).2]).pmm = p := by
  obtain ⟨p, hp, -, hrun⟩ := pmmRun_forgets kernelAt1M oddBlock oddTags oddBlock_wellFormed
    oddBlock_sumsFit 56 (by decide)
  obtain ⟨p', hp', hok⟩ := pmmInit_ok kernelAt1M oddBlock_wellFormed oddBlock_sumsFit
    (by decide : mbTotalSize oddBlock ≤ 56)
  obtain rfl := Option.some.inj (hp.symm.trans hp')
  have hne : (pmmAllocFrame p).2 ≠ 0 := fun hzero =>
    hok.allocFrame.zero_iff.mp hzero
      ⟨0x200, ⟨oddBlock_bootFree.mpr (Or.inl rfl), Finset.notMem_empty _⟩, trivial⟩
  have htaken : (pmmStep ⟨p, ∅⟩ .allocFrame).outstanding = {(pmmAllocFrame p).2} := by
    rw [pmmStep, PmmState.grant, if_neg hne]
    rfl
  refine ⟨p, hp, hne, hrun _ ⟨fun _ hop => ?_, fun _ hop => ?_, trivial⟩ ?_⟩
  · cases hop
  · cases hop
    rw [htaken]
    exact Finset.mem_singleton_self _
  · change (pmmStep ⟨p, ∅⟩ .allocFrame).outstanding.erase (pmmAllocFrame p).2 = ∅
    rw [htaken]
    exact Finset.erase_singleton _

end WaluOs
