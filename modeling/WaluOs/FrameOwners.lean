import WaluOs.VmmRuns

/-!
# Who owns a frame

The allocator serves two kinds of user: `ensure_table`, whose frames become page
tables, and everyone else, who may write into the frames they hold as they like.
A history (`MemOp`) mixes all of it: allocations and frees by clients, their stores,
and `vmm_map_2m` calls.

Every frame that was free after `pmm_init` is at any time one of three things: free,
held by a client, or a page table (`FramesOk`). From that it follows that the two
users never meet. No store of a client changes an address translation, which is
what the successful calls say and nothing else (`memRun_isolated`); and no call
changes a word in a frame that a client holds (`memRun_keeps_data`).
-/

namespace WaluOs

open RadixTable

/-! ## Histories -/

/-- A step of a history. Clients share the memory and the allocator with the page tables, and
nothing in hardware keeps them apart. -/
inductive MemOp : Type where
  /-- a client allocates or frees -/
  | frame : PmmOp → MemOp
  /-- a client stores a word -/
  | store : ℕ → BitVec 64 → MemOp
  /-- `vmm_map_2m` -/
  | map : ℕ → ℕ → BitVec 64 → MemOp
  deriving DecidableEq, Repr

/-- What a successful call has mapped, in its own words. -/
structure MapCall : Type where
  /-- `virt_addr` -/
  virtAddr : ℕ
  /-- `phys_addr` -/
  physAddr : ℕ
  /-- `flags` -/
  flags : BitVec 64

/-- Memory, who holds its frames, and the successful calls so far. The last two are not in the
code: they are what an observer writes down. -/
structure MemState : Type where
  /-- memory and the allocator -/
  vmm : Vmm
  /-- the frames of the clients -/
  held : Finset ℕ
  /-- successful calls, oldest first -/
  mapped : List MapCall

/-- One step. -/
def memStep (pml4Table : ℕ) (s : MemState) : MemOp → MemState
  | .frame op =>
    let q := pmmStep ⟨s.vmm.pmm, s.held⟩ op
    { s with vmm := ⟨s.vmm.mem, q.pmm⟩, held := q.outstanding }
  | .store addr word => { s with vmm := ⟨Function.update s.vmm.mem addr word, s.vmm.pmm⟩ }
  | .map virtAddr physAddr flags =>
    let r := vmmMap2m pml4Table s.vmm virtAddr physAddr flags
    { s with
      vmm := r.1
      mapped := if r.2 then s.mapped ++ [⟨virtAddr, physAddr, flags⟩] else s.mapped }

/-- A history of clients and mapping calls, in any order. -/
def memRun (pml4Table : ℕ) (s : MemState) (ops : List MemOp) : MemState :=
  ops.foldl (memStep pml4Table) s

/-- Clients free what they hold and store into what they hold; calls keep the identity window and
name physical addresses. This is the discipline under which frames have one owner. Nothing is
asked of allocations, and a call may fail. -/
def MemOp.Allowed (s : MemState) : MemOp → Prop
  | .frame op => ∀ physAddr, op = .freeFrame physAddr → physAddr ∈ s.held
  | .store addr _ => addr % 8 = 0 ∧ addr / frameSize * frameSize ∈ s.held
  | .map virtAddr physAddr _ => WindowCall virtAddr physAddr ∧ physAddr < 2 ^ 52

/-- Every step is allowed where it is taken, that is in the state that the steps before it have
led to. -/
def AllAllowed (pml4Table : ℕ) : MemState → List MemOp → Prop
  | _, [] => True
  | s, op :: ops => op.Allowed s ∧ AllAllowed pml4Table (memStep pml4Table s op) ops

/-! ## Address spaces -/

instance (virtAddr addr : ℕ) : Decidable (InPage virtAddr addr) :=
  inferInstanceAs (Decidable (virtAddr ≤ addr ∧ addr < virtAddr + 2 ^ 21))

/-- What `boot.S` maps: the window, to itself. -/
def bootSpace (addr : ℕ) : Option Mapping :=
  if addr < identityWindowLimit then some ⟨addr, true, false, false⟩ else none

/-- What one call makes of an address space. -/
def MapCall.apply (space : ℕ → Option Mapping) (c : MapCall) (addr : ℕ) : Option Mapping :=
  if InPage c.virtAddr addr then
    some ⟨c.physAddr + (addr - c.virtAddr), c.flags.getLsbD 1, c.flags.getLsbD 2,
      c.flags.getLsbD 63⟩
  else space addr

/-- The address space that calls build: each maps its 2 MiB over what was there before, from the
first GiB of `boot.S` on. It is the abstract side of the tables. -/
def addrSpace (calls : List MapCall) : ℕ → Option Mapping := calls.foldl MapCall.apply bootSpace

/-- The boot tables map the window and nothing else. -/
theorem BootTables.translate_eq {image : KernelImage} {l : BootLayout image}
    {mem : ℕ → BitVec 64} (h : BootTables l mem) (addr : ℕ) :
    translate mem l.pml4Table addr = bootSpace addr := by
  rw [bootSpace]
  by_cases haddr : addr < identityWindowLimit
  · rw [if_pos haddr, h.translate_window haddr]
  · rw [if_neg haddr, translate]
    by_cases hcanon : Canonical addr
    · have hpath : walkPath addr ≠ [0, 0] := by
        simp only [walkPath, pdptIndex, pml4Index, Canonical, identityWindowLimit, ne_eq,
          List.cons.injEq, and_true] at *
        omega
      have hnode : nodeAddr pteLink mem l.pml4Table (walkPath addr) = none := by
        rw [h.nodes (walkPath_valid addr), if_neg (by simp [walkPath]), if_neg (by simp [walkPath]),
          if_neg hpath]
      rw [if_pos hcanon, leafWord, hnode]
    · rw [if_neg hcanon]

/-! ## The invariant -/

/-- The frame is a page table: some path of links leads to it from the root. -/
abbrev IsTable (pml4Table : ℕ) (s : Vmm) (t : ℕ) : Prop := IsNode pteLink s.mem pml4Table 2 t

/-- Every frame has one owner: it is free, or a client has it, or it is a page table. From this it
follows that no client can store into a table, and that a table is never handed out. -/
structure FramesOk (image : KernelImage) (entries : List MmapEntry) (pml4Table : ℕ)
    (s : MemState) : Prop where
  /-- the tables are well formed -/
  tables : VmmOk pml4Table s.vmm
  /-- `total_frames` stays -/
  total : s.vmm.pmm.totalFrames = usableEnd entries / frameSize
  /-- the free frames are those that nobody has -/
  free_iff : ∀ frame, bitmapTest s.vmm.pmm frame = false ↔
    BootFree image entries frame ∧ frame * frameSize ∉ s.held ∧
      ¬IsTable pml4Table s.vmm (frame * frameSize)
  /-- clients hold frames that are no tables -/
  held : ∀ physAddr ∈ s.held, ∃ frame, physAddr = frame * frameSize ∧
    BootFree image entries frame ∧ ¬IsTable pml4Table s.vmm physAddr

section

variable {image : KernelImage} {entries : List MmapEntry} {pml4Table : ℕ} {s : MemState}

/-- A frame that is not free is not used up by taking another one. -/
theorem mul_frameSize_inj {f g : ℕ} (h : f * frameSize = g * frameSize) : f = g :=
  Nat.mul_right_cancel (by decide) h

/-- A free frame becomes a client's. -/
theorem FramesOk.take (h : FramesOk image entries pml4Table s) {f : ℕ}
    (hf : bitmapTest s.vmm.pmm f = false) :
    FramesOk image entries pml4Table
      { s with
        vmm := ⟨s.vmm.mem, bitmapSet s.vmm.pmm f⟩
        held := insert (f * frameSize) s.held } := by
  obtain ⟨hboot, hheld, htable⟩ := (h.free_iff f).mp hf
  have hlt : f < s.vmm.pmm.totalFrames := h.total ▸ hboot.lt
  refine ⟨⟨bitmapTest_bitmapSet_mono h.tables.frameZero, ?_⟩, ?_, fun g => ?_, fun a ha => ?_⟩
  · exact h.tables.tables.congr (fun _ _ _ _ => rfl) fun t ht =>
      ⟨(h.tables.tables.frame _ _ ht.choose_spec.1 ht.choose_spec.2).1,
        bitmapTest_bitmapSet_mono
          (h.tables.tables.frame _ _ ht.choose_spec.1 ht.choose_spec.2).2⟩
  · exact (totalFrames_bitmapSet _ _).trans h.total
  · dsimp only
    rw [bitmapTest_bitmapSet hlt, Finset.mem_insert]
    by_cases hg : g = f
    · simp [hg]
    · rw [if_neg hg, h.free_iff g]
      have hne : g * frameSize ≠ f * frameSize := fun he => hg (mul_frameSize_inj he)
      exact ⟨fun hfree => ⟨hfree.1, fun hm => hm.elim hne hfree.2.1, hfree.2.2⟩,
        fun hfree => ⟨hfree.1, fun hm => hfree.2.1 (Or.inr hm), hfree.2.2⟩⟩
  · rcases Finset.mem_insert.mp ha with rfl | ha
    · exact ⟨f, rfl, hboot, htable⟩
    · exact h.held a ha

/-- A table is a frame in use that no client holds. -/
theorem FramesOk.table_used (h : FramesOk image entries pml4Table s) {t : ℕ}
    (ht : IsTable pml4Table s.vmm t) :
    t % 4096 = 0 ∧ TableFrame s.vmm.pmm t ∧ t ∉ s.held := by
  obtain ⟨path, hpath, hnode⟩ := ht
  refine ⟨h.tables.tables.aligned _ _ hpath hnode, h.tables.tables.frame _ _ hpath hnode,
    fun hheld => ?_⟩
  obtain ⟨f, -, -, hno⟩ := h.held t hheld
  exact hno ⟨path, hpath, hnode⟩

/-- A client's frame becomes free. It was held and so it was no page table, and the tables stay
where they are. -/
theorem FramesOk.release (h : FramesOk image entries pml4Table s) {a : ℕ} (ha : a ∈ s.held) :
    FramesOk image entries pml4Table
      { s with
        vmm := ⟨s.vmm.mem, pmmFreeFrame s.vmm.pmm a⟩
        held := s.held.erase a } := by
  obtain ⟨f, rfl, hboot, htable⟩ := h.held a ha
  have hlt : f < s.vmm.pmm.totalFrames := h.total ▸ hboot.lt
  rw [pmmFreeFrame, Nat.mul_div_cancel _ (by decide)]
  refine ⟨⟨?_, ?_⟩, ?_, fun g => ?_, fun b hb => ?_⟩
  · rw [bitmapTest_bitmapClear hlt, if_neg]
    · exact h.tables.frameZero
    · rintro rfl
      exact hboot.ne_zero rfl
  · refine h.tables.tables.congr (fun _ _ _ _ => rfl) fun t ht => ?_
    obtain ⟨haligned, hframe, -⟩ := h.table_used ht
    refine ⟨hframe.1, ?_⟩
    rw [bitmapTest_bitmapClear hlt, if_neg]
    · exact hframe.2
    · rintro rfl
      rw [frameSize, Nat.div_mul_cancel (Nat.dvd_of_mod_eq_zero haligned)] at htable
      exact htable ht
  · exact (totalFrames_bitmapClear _ _).trans h.total
  · dsimp only
    rw [bitmapTest_bitmapClear hlt, Finset.mem_erase]
    by_cases hg : g = f
    · subst hg
      exact ⟨fun _ => ⟨hboot, fun hm => hm.1 rfl, htable⟩, fun _ => if_pos rfl⟩
    · rw [if_neg hg, h.free_iff g]
      have hne : g * frameSize ≠ f * frameSize := fun he => hg (mul_frameSize_inj he)
      exact ⟨fun hfree => ⟨hfree.1, fun hm => hfree.2.1 hm.2, hfree.2.2⟩,
        fun hfree => ⟨hfree.1, fun hm => hfree.2.1 ⟨hne, hm⟩, hfree.2.2⟩⟩
  · exact h.held b (Finset.mem_of_mem_erase hb)

/-- A client allocates or frees. -/
theorem FramesOk.frame (h : FramesOk image entries pml4Table s) {op : PmmOp}
    (hop : (MemOp.frame op).Allowed s) :
    FramesOk image entries pml4Table (memStep pml4Table s (.frame op)) := by
  have hgrant : ∀ maxFrame, FramesOk image entries pml4Table
      { s with
        vmm := ⟨s.vmm.mem, (PmmState.grant ⟨s.vmm.pmm, s.held⟩
          (pmmAllocBelow s.vmm.pmm maxFrame)).pmm⟩
        held := (PmmState.grant ⟨s.vmm.pmm, s.held⟩
          (pmmAllocBelow s.vmm.pmm maxFrame)).outstanding } := by
    intro maxFrame
    rcases pmmAllocBelow_cases s.vmm.pmm maxFrame with ⟨heq, -⟩ | ⟨f, -, hclear, -, heq⟩
    · rw [heq]
      exact h
    · rw [heq, PmmState.grant, if_neg ((h.free_iff f).mp hclear).1.ne_zero]
      exact h.take hclear
  cases op with
  | allocFrame => exact hgrant _
  | allocFrameLow maxPhysAddr => exact hgrant _
  | freeFrame physAddr => exact h.release (hop physAddr rfl)

/-! ## Stores and calls -/

/-- The words of the frames in `held` stay. -/
def KeepsHeld (held : Finset ℕ) (mem mem' : ℕ → BitVec 64) : Prop :=
  ∀ addr, addr / frameSize * frameSize ∈ held → mem' addr = mem addr

/-- A slot lies in its table. -/
theorem slot_frame {t i : ℕ} (ht : t % 4096 = 0) (hi : i < 512) :
    slot t i / frameSize * frameSize = t := by
  simp only [slot, frameSize]
  omega

/-- A store into a client's frame is seen by no walk. -/
theorem FramesOk.store_sameTables (h : FramesOk image entries pml4Table s) {addr : ℕ}
    (haddr : addr / frameSize * frameSize ∈ s.held) (word : BitVec 64) :
    SameTables pteLink s.vmm.mem (Function.update s.vmm.mem addr word) pml4Table 2 := by
  intro t ht i hi
  obtain ⟨haligned, -, hheld⟩ := h.table_used ht
  refine Function.update_of_ne ?_ _ _
  rintro rfl
  rw [slot_frame haligned hi] at haddr
  exact hheld haddr

/-- A client stores. -/
theorem FramesOk.store (h : FramesOk image entries pml4Table s) {addr : ℕ}
    (haddr : addr / frameSize * frameSize ∈ s.held) (word : BitVec 64) :
    FramesOk image entries pml4Table (memStep pml4Table s (.store addr word)) := by
  have hsame := h.store_sameTables haddr word
  have hnode : ∀ t, IsTable pml4Table (memStep pml4Table s (.store addr word)).vmm t ↔
      IsTable pml4Table s.vmm t := fun t => hsame.isNode_iff
  refine ⟨⟨h.tables.frameZero, h.tables.tables.congr hsame fun t ht => (h.table_used ht).2.1⟩,
    h.total, fun f => ?_, fun a ha => ?_⟩
  · rw [hnode]
    exact h.free_iff f
  · obtain ⟨f, hf, hboot, htable⟩ := h.held a ha
    exact ⟨f, hf, hboot, fun ht => htable ((hnode a).mp ht)⟩

/-- `ensure_table` takes a free frame at most, and writes that frame and the slot. -/
theorem FramesOk.ensureTable (h : FramesOk image entries pml4Table s) {index parent : ℕ}
    {path : List ℕ} (hpath : ValidPath 2 (index :: path))
    (hparent : nodeAddr pteLink s.vmm.mem pml4Table path = some parent) :
    FramesOk image entries pml4Table { s with vmm := (ensureTable s.vmm parent index).1 } ∧
      KeepsHeld s.held s.vmm.mem (ensureTable s.vmm parent index).1.mem := by
  have hok := (ensureTable_spec h.tables hpath hparent).1
  rcases ensureTable_cases h.tables.frameZero parent index with
    ⟨-, heq⟩ | ⟨hbit, ⟨heq, -⟩ | ⟨f, hlimit, hclear, -, heq⟩⟩
  · rw [heq]
    exact ⟨h, fun _ _ => rfl⟩
  · rw [heq]
    exact ⟨h, fun _ _ => rfl⟩
  · obtain ⟨hboot, hheld, htable⟩ := (h.free_iff f).mp hclear
    have hfresh := h.tables.fresh hclear
    have hlt : f < s.vmm.pmm.totalFrames := h.total ▸ hboot.lt
    have hslot : pteLink (s.vmm.mem (slot parent index)) = none := by
      rw [pteLink, hbit]
      rfl
    have hlink := pteLink_tableEntry hfresh.1 (t := f * 4096) (by
      simp only [identityWindowLimit] at hlimit
      omega)
    have hnode : ∀ t, IsTable pml4Table
        ⟨attach s.vmm.mem (f * 4096) 0#64 parent index (tableEntry (f * 4096)),
          bitmapSet s.vmm.pmm f⟩ t ↔ IsTable pml4Table s.vmm t ∨ t = f * 4096 := fun t =>
      isNode_attach_iff h.tables.tables hfresh hpath hparent hslot rfl hlink
    obtain ⟨hparentAligned, -, hparentHeld⟩ := h.table_used ⟨path, hpath.tail, hparent⟩
    rw [heq] at hok ⊢
    refine ⟨⟨hok, (totalFrames_bitmapSet _ _).trans h.total, fun g => ?_, fun a ha => ?_⟩,
      fun addr haddr => ?_⟩
    · dsimp only
      rw [bitmapTest_bitmapSet hlt, hnode]
      by_cases hg : g = f
      · simp [hg]
      · rw [if_neg hg, h.free_iff g]
        have hne : g * frameSize ≠ f * 4096 := fun he => hg (mul_frameSize_inj he)
        rw [not_or]
        exact ⟨fun hfree => ⟨hfree.1, hfree.2.1, hfree.2.2, hne⟩,
          fun hfree => ⟨hfree.1, hfree.2.1, hfree.2.2.1⟩⟩
    · obtain ⟨g, hg, hbootg, htableg⟩ := h.held a ha
      refine ⟨g, hg, hbootg, fun ht => ?_⟩
      rcases (hnode a).mp ht with ht | rfl
      · exact htableg ht
      · exact hheld ha
    · -- neither the slot nor the new table is in a client's frame
      dsimp only
      rw [attach, Function.update_of_ne, fill, if_neg]
      · rintro ⟨hle, hub⟩
        have hframe : addr / frameSize * frameSize = f * frameSize := by
          simp only [frameSize]
          omega
        exact hheld (hframe ▸ haddr)
      · rintro rfl
        rw [slot_frame hparentAligned hpath.head] at haddr
        exact hparentHeld haddr

/-- The leaf is written into a table. -/
theorem FramesOk.setLeaf (h : FramesOk image entries pml4Table s) {addr pd : ℕ}
    (hnode : nodeAddr pteLink s.vmm.mem pml4Table (walkPath addr) = some pd) (word : BitVec 64) :
    FramesOk image entries pml4Table
        { s with vmm := ⟨RadixTable.setLeaf s.vmm.mem pd (pdIndex addr) word, s.vmm.pmm⟩ } ∧
      KeepsHeld s.held s.vmm.mem (RadixTable.setLeaf s.vmm.mem pd (pdIndex addr) word) := by
  have hpath := walkPath_valid addr
  have hsame : ∀ t, IsTable pml4Table
      ⟨RadixTable.setLeaf s.vmm.mem pd (pdIndex addr) word, s.vmm.pmm⟩ t ↔
        IsTable pml4Table s.vmm t := fun t =>
    isNode_setLeaf_iff h.tables.tables hpath rfl (pdIndex_lt addr) hnode
  obtain ⟨haligned, -, hheld⟩ := h.table_used ⟨_, hpath, hnode⟩
  refine ⟨⟨⟨h.tables.frameZero,
    h.tables.tables.setLeaf hpath rfl (pdIndex_lt addr) hnode⟩, h.total, fun f => ?_,
    fun a ha => ?_⟩, fun a ha => ?_⟩
  · rw [hsame]
    exact h.free_iff f
  · obtain ⟨f, hf, hboot, htable⟩ := h.held a ha
    exact ⟨f, hf, hboot, fun ht => htable ((hsame a).mp ht)⟩
  · refine Function.update_of_ne ?_ _ _
    rintro rfl
    rw [slot_frame haligned (pdIndex_lt addr)] at ha
    exact hheld ha

theorem KeepsHeld.trans {held : Finset ℕ} {mem₁ mem₂ mem₃ : ℕ → BitVec 64}
    (h₁ : KeepsHeld held mem₁ mem₂) (h₂ : KeepsHeld held mem₂ mem₃) : KeepsHeld held mem₁ mem₃ :=
  fun addr haddr => (h₂ addr haddr).trans (h₁ addr haddr)

/-- A call keeps the owners apart, and what the clients hold. -/
theorem FramesOk.map2m (h : FramesOk image entries pml4Table s) (virtAddr physAddr : ℕ)
    (flags : BitVec 64) :
    FramesOk image entries pml4Table
        { s with vmm := (vmmMap2m pml4Table s.vmm virtAddr physAddr flags).1 } ∧
      KeepsHeld s.held s.vmm.mem (vmmMap2m pml4Table s.vmm virtAddr physAddr flags).1.mem := by
  rw [vmmMap2m]
  by_cases halign : virtAddr % 2 ^ 21 ≠ 0 ∨ physAddr % 2 ^ 21 ≠ 0
  · rw [if_pos halign]
    exact ⟨h, fun _ _ => rfl⟩
  · rw [if_neg halign]
    have hpath := walkPath_valid virtAddr
    obtain ⟨-, -, hchild₁, -⟩ := ensureTable_spec h.tables hpath.tail rfl
    obtain ⟨hok₁, hkeep₁⟩ := h.ensureTable hpath.tail rfl
    rcases he₁ : WaluOs.ensureTable s.vmm pml4Table (pml4Index virtAddr) with ⟨s₁, pdpt⟩
    rw [he₁] at hok₁ hkeep₁ hchild₁
    cases pdpt with
    | none => exact ⟨hok₁, hkeep₁⟩
    | some pdpt =>
      obtain ⟨-, -, hchild₂, -⟩ := ensureTable_spec hok₁.tables hpath (hchild₁ pdpt rfl)
      obtain ⟨hok₂, hkeep₂⟩ := hok₁.ensureTable hpath (hchild₁ pdpt rfl)
      dsimp only at hok₂ hkeep₂ hchild₂ ⊢
      rcases he₂ : WaluOs.ensureTable s₁ pdpt (pdptIndex virtAddr) with ⟨s₂, pd⟩
      rw [he₂] at hok₂ hkeep₂ hchild₂
      cases pd with
      | none => exact ⟨hok₂, hkeep₁.trans hkeep₂⟩
      | some pd =>
        obtain ⟨hok₃, hkeep₃⟩ := hok₂.setLeaf (hchild₂ pd rfl) (leafEntry physAddr flags)
        exact ⟨hok₃, (hkeep₁.trans hkeep₂).trans hkeep₃⟩

/-! ## What a step keeps -/

theorem FramesOk.step (h : FramesOk image entries pml4Table s) {op : MemOp} (hop : op.Allowed s) :
    FramesOk image entries pml4Table (memStep pml4Table s op) := by
  cases op with
  | frame op => exact h.frame hop
  | store addr word => exact h.store hop.2 word
  | map virtAddr physAddr flags =>
    have hok := (h.map2m virtAddr physAddr flags).1
    exact ⟨hok.tables, hok.total, hok.free_iff, hok.held⟩

theorem FramesOk.run {ops : List MemOp} :
    ∀ {s : MemState}, FramesOk image entries pml4Table s → AllAllowed pml4Table s ops →
      FramesOk image entries pml4Table (memRun pml4Table s ops) := by
  induction ops with
  | nil => exact fun h _ => h
  | cons op ops ih => exact fun h hall => ih (h.step hall.1) hall.2

/-- Memory translates as the successful calls say. -/
def Translates (pml4Table : ℕ) (s : MemState) : Prop :=
  ∀ addr, translate s.vmm.mem pml4Table addr = addrSpace s.mapped addr

theorem addrSpace_concat (calls : List MapCall) (c : MapCall) :
    addrSpace (calls ++ [c]) = c.apply (addrSpace calls) := by
  rw [addrSpace, List.foldl_append]
  rfl

theorem Translates.step (h : Translates pml4Table s) (hok : FramesOk image entries pml4Table s)
    {op : MemOp} (hop : op.Allowed s) : Translates pml4Table (memStep pml4Table s op) := by
  cases op with
  | frame op => exact h
  | store addr word =>
    have hsame := hok.store_sameTables hop.2 word
    intro a
    refine Eq.trans ?_ (h a)
    change translate (Function.update s.vmm.mem addr word) pml4Table a = _
    rw [translate, translate, hsame.leafWord (walkPath_valid a) (pdIndex_lt a)]
  | map virtAddr physAddr flags =>
    have hspec := vmmMap2m_spec hok.tables hop.1.canonical physAddr flags
    intro a
    change translate (vmmMap2m pml4Table s.vmm virtAddr physAddr flags).1.mem pml4Table a =
      addrSpace (if (vmmMap2m pml4Table s.vmm virtAddr physAddr flags).2 then
        s.mapped ++ [⟨virtAddr, physAddr, flags⟩] else s.mapped) a
    cases hr : (vmmMap2m pml4Table s.vmm virtAddr physAddr flags).2 with
    | false =>
      rw [hspec.failed hr]
      exact h a
    | true =>
      rw [if_pos rfl, addrSpace_concat, MapCall.apply]
      by_cases hin : InPage virtAddr a
      · rw [if_pos hin, hspec.mapped hop.2 hr a hin]
      · rw [if_neg hin, hspec.others hr a hin]
        exact h a

theorem Translates.run {ops : List MemOp} :
    ∀ {s : MemState}, Translates pml4Table s → FramesOk image entries pml4Table s →
      AllAllowed pml4Table s ops → Translates pml4Table (memRun pml4Table s ops) := by
  induction ops with
  | nil => exact fun h _ _ => h
  | cons op ops ih => exact fun h hok hall => ih (h.step hok hall.1) (hok.step hall.1) hall.2

end

/-! ## From boot on -/

/-- Nobody holds anything yet, and no call has been made. -/
def memBoot (mem : ℕ → BitVec 64) (p : Pmm) : MemState := ⟨⟨mem, p⟩, ∅, []⟩

/-- The boot tables are in the kernel image, so no table is free. -/
theorem BootTables.framesOk {image : KernelImage} {l : BootLayout image} {mem : ℕ → BitVec 64}
    (h : BootTables l mem) {entries : List MmapEntry} {p : Pmm}
    (hp : PmmState.Ok image entries ⟨p, ∅⟩) :
    FramesOk image entries l.pml4Table (memBoot mem p) := by
  have hok := h.ok hp
  refine ⟨hok, hp.total, fun f => ?_, fun a ha => absurd ha (Finset.notMem_empty a)⟩
  refine (hp.free_iff f).trans ⟨fun hfree => ⟨hfree.1, hfree.2, fun ht => ?_⟩,
    fun hfree => ⟨hfree.1, hfree.2.1⟩⟩
  obtain ⟨path, hpath, hnode⟩ := ht
  have hused := (hok.tables.frame path _ hpath hnode).2
  rw [frameSize, Nat.mul_div_cancel _ (by decide)] at hused
  rw [(hp.free_iff f).mpr hfree] at hused
  cases hused

/-- **Clients and page tables never share a frame**, over every history: what is free
is what nobody has, and the translation is what the successful calls say, whatever the
clients allocate, free and store. -/
theorem memRun_isolated (image : KernelImage) (l : BootLayout image) (mb : Block)
    (tags : List Tag) (h : WellFormed mb tags) (hsum : SumsFit (mmapEntries tags)) (fuel : ℕ)
    (hfuel : mbTotalSize mb ≤ fuel) (mem : ℕ → BitVec 64) (hboot : BootTables l mem) :
    ∃ p, pmmInit image mb fuel = some p ∧ ∀ ops, AllAllowed l.pml4Table (memBoot mem p) ops →
      let s := memRun l.pml4Table (memBoot mem p) ops
      (∀ t, IsTable l.pml4Table s.vmm t → t ∉ s.held) ∧
        (∀ frame, bitmapTest s.vmm.pmm frame = false ↔
          BootFree image (mmapEntries tags) frame ∧ frame * frameSize ∉ s.held ∧
            ¬IsTable l.pml4Table s.vmm (frame * frameSize)) ∧
        ∀ addr, translate s.vmm.mem l.pml4Table addr = addrSpace s.mapped addr := by
  obtain ⟨p, hp, hok⟩ := pmmInit_ok image h hsum hfuel
  have hframes := hboot.framesOk hok
  have htrans : Translates l.pml4Table (memBoot mem p) := hboot.translate_eq
  refine ⟨p, hp, fun ops hall => ?_⟩
  have hrun := hframes.run hall
  exact ⟨fun t ht => (hrun.table_used ht).2.2, hrun.free_iff, htrans.run hframes hall⟩

/-! ## What clients find -/

/-- The word a step stores at an address. -/
def MemOp.stored (addr : ℕ) : MemOp → Option (BitVec 64)
  | .store a word => if a = addr then some word else none
  | .frame _ => none
  | .map _ _ _ => none

/-- The last word stored at an address by the steps, if there was any. -/
def lastStored (addr : ℕ) (ops : List MemOp) : Option (BitVec 64) :=
  (ops.filterMap (MemOp.stored addr)).getLast?

theorem getLast?_getD_cons {α : Type} (x : α) (xs : List α) (y : α) :
    (x :: xs).getLast?.getD y = xs.getLast?.getD x := by
  cases xs with
  | nil => rfl
  | cons z zs =>
    rw [List.getLast?_cons_cons, List.getLast?_cons, Option.getD_some, Option.getD_some]

theorem lastStored_cons (addr : ℕ) (op : MemOp) (ops : List MemOp) (word : BitVec 64) :
    (lastStored addr (op :: ops)).getD word =
      (lastStored addr ops).getD ((op.stored addr).getD word) := by
  rw [lastStored, List.filterMap_cons, lastStored]
  cases op.stored addr with
  | none => rfl
  | some w => exact getLast?_getD_cons w _ word

section

variable {image : KernelImage} {entries : List MmapEntry} {pml4Table : ℕ} {s : MemState}

/-- In a client's frame a word changes only if it is stored. -/
theorem FramesOk.step_mem (h : FramesOk image entries pml4Table s) (op : MemOp) {addr : ℕ}
    (haddr : addr / frameSize * frameSize ∈ s.held) :
    (memStep pml4Table s op).vmm.mem addr = (op.stored addr).getD (s.vmm.mem addr) := by
  cases op with
  | frame op => rfl
  | store a word =>
    change Function.update s.vmm.mem a word addr = _
    rw [MemOp.stored]
    by_cases hsame : a = addr
    · rw [if_pos hsame, hsame, Function.update_self, Option.getD_some]
    · rw [if_neg hsame, Function.update_of_ne (Ne.symm hsame), Option.getD_none]
  | map virtAddr physAddr flags => exact (h.map2m virtAddr physAddr flags).2 addr haddr

/-- A client keeps a frame until it frees it. -/
theorem memStep_held {op : MemOp} {a : ℕ} (ha : a ∈ s.held)
    (hfree : op ≠ .frame (.freeFrame a)) : a ∈ (memStep pml4Table s op).held := by
  have hgrant : ∀ r : Pmm × ℕ, a ∈ (PmmState.grant ⟨s.vmm.pmm, s.held⟩ r).outstanding := by
    intro r
    rw [PmmState.grant]
    dsimp only
    split_ifs
    · exact ha
    · exact Finset.mem_insert_of_mem ha
  cases op with
  | frame op =>
    cases op with
    | allocFrame => exact hgrant _
    | allocFrameLow maxPhysAddr => exact hgrant _
    | freeFrame b =>
      refine Finset.mem_erase.mpr ⟨?_, ha⟩
      rintro rfl
      exact hfree rfl
  | store b word => exact ha
  | map virtAddr physAddr flags => exact ha

/-- The same over a run. -/
theorem FramesOk.run_mem {ops : List MemOp} {addr : ℕ} :
    ∀ {s : MemState}, FramesOk image entries pml4Table s → AllAllowed pml4Table s ops →
      addr / frameSize * frameSize ∈ s.held →
      MemOp.frame (.freeFrame (addr / frameSize * frameSize)) ∉ ops →
      (memRun pml4Table s ops).vmm.mem addr = (lastStored addr ops).getD (s.vmm.mem addr) := by
  induction ops with
  | nil => exact fun _ _ _ _ => rfl
  | cons op ops ih =>
    intro s h hall haddr hfree
    have hne : op ≠ .frame (.freeFrame (addr / frameSize * frameSize)) :=
      fun he => hfree (he ▸ List.mem_cons_self ..)
    have hrest := ih (h.step hall.1) hall.2 (memStep_held haddr hne)
      fun hm => hfree (List.mem_cons_of_mem _ hm)
    refine hrest.trans ?_
    rw [lastStored_cons, h.step_mem op haddr]

end

theorem allAllowed_append {pml4Table : ℕ} {xs ys : List MemOp} :
    ∀ {s : MemState}, AllAllowed pml4Table s (xs ++ ys) →
      AllAllowed pml4Table s xs ∧ AllAllowed pml4Table (memRun pml4Table s xs) ys := by
  induction xs with
  | nil => exact fun h => ⟨trivial, h⟩
  | cons op xs ih =>
    intro s h
    obtain ⟨hxs, hys⟩ := ih h.2
    exact ⟨⟨h.1, hxs⟩, hys⟩

/-- **A client finds in its frame what it has stored there last**, or what was there
when it got hold of it, whatever others do meanwhile. -/
theorem memRun_keeps_data (image : KernelImage) (l : BootLayout image) (mb : Block)
    (tags : List Tag) (h : WellFormed mb tags) (hsum : SumsFit (mmapEntries tags)) (fuel : ℕ)
    (hfuel : mbTotalSize mb ≤ fuel) (mem : ℕ → BitVec 64) (hboot : BootTables l mem) :
    ∃ p, pmmInit image mb fuel = some p ∧ ∀ before later addr,
      AllAllowed l.pml4Table (memBoot mem p) (before ++ later) →
      let s := memRun l.pml4Table (memBoot mem p) before
      addr / frameSize * frameSize ∈ s.held →
      MemOp.frame (.freeFrame (addr / frameSize * frameSize)) ∉ later →
      (memRun l.pml4Table (memBoot mem p) (before ++ later)).vmm.mem addr =
        (lastStored addr later).getD (s.vmm.mem addr) := by
  obtain ⟨p, hp, hok⟩ := pmmInit_ok image h hsum hfuel
  refine ⟨p, hp, fun before later addr hall haddr hfree => ?_⟩
  obtain ⟨hbefore, hlater⟩ := allAllowed_append hall
  rw [memRun, List.foldl_append]
  exact ((hboot.framesOk hok).run hbefore).run_mem hlater haddr hfree

/-! ### A client of the kernel at 1 MiB -/

/-- It takes a frame and stores a word into it; then the page around it becomes read-only. -/
def oneClient : List MemOp :=
  [.frame .allocFrame, .store 0x200008 5#64, .map 0x200000 0x200000 0#64]

theorem oneClient_allowed {p : Pmm} (h : PmmState.Ok kernelAt1M (mmapEntries oddTags) ⟨p, ∅⟩) :
    AllAllowed layoutAt1M.pml4Table (memBoot bootMem p) oneClient := by
  have hheld : (memStep layoutAt1M.pml4Table (memBoot bootMem p) (.frame .allocFrame)).held =
      {0x200000} := by
    change (PmmState.grant ⟨p, ∅⟩ (pmmAllocFrame p)).outstanding = _
    rw [PmmState.grant,
      pmmAllocFrame_oddBlock h (Or.inl rfl) (Finset.notMem_empty (0x200 * frameSize)),
      if_neg (by decide)]
    rfl
  refine ⟨fun _ hop => (by cases hop), ⟨by decide, ?_⟩, ⟨⟨Or.inl (by decide), Or.inr rfl⟩,
    by decide⟩, trivial⟩
  rw [hheld]
  exact Finset.mem_singleton_self _

/-- Its call succeeds: the tables it needs are there. -/
theorem oneClient_mapped (p : Pmm) :
    (memRun layoutAt1M.pml4Table (memBoot bootMem p) oneClient).mapped =
      [⟨0x200000, 0x200000, 0#64⟩] := by
  have hpml4 : (Function.update bootMem 0x200008 5#64 (slot 0x100000 0)).getLsbD 0 = true := by
    decide
  have hpdpt : (Function.update bootMem 0x200008 5#64 (slot 0x101000 0)).getLsbD 0 = true := by
    decide
  have hcall : ∀ q : Pmm, (vmmMap2m layoutAt1M.pml4Table
      ⟨Function.update bootMem 0x200008 5#64, q⟩ 0x200000 0x200000 0#64).2 = true := by
    intro q
    rw [vmmMap2m, if_neg (by decide), show pml4Index 0x200000 = 0 from rfl,
      show pdptIndex 0x200000 = 0 from rfl, ensureTable_present hpml4]
    dsimp only
    rw [ensureTable_present hpdpt]
  exact if_pos (hcall _)

/-- The page is read-only, and mapped to itself. -/
theorem memRun_isolated_oneClient : ∃ p, pmmInit kernelAt1M oddBlock 56 = some p ∧
    translate (memRun layoutAt1M.pml4Table (memBoot bootMem p) oneClient).vmm.mem
      layoutAt1M.pml4Table 0x200008 = some ⟨0x200008, false, false, false⟩ := by
  obtain ⟨p, hp, hall⟩ := memRun_isolated kernelAt1M layoutAt1M oddBlock oddTags
    oddBlock_wellFormed oddBlock_sumsFit 56 (by decide) bootMem bootMem_tables
  obtain ⟨p', hp', hok⟩ := pmmInit_ok kernelAt1M oddBlock_wellFormed oddBlock_sumsFit
    (by decide : mbTotalSize oddBlock ≤ 56)
  obtain rfl := Option.some.inj (hp.symm.trans hp')
  obtain ⟨-, -, htranslate⟩ := hall oneClient (oneClient_allowed hok)
  refine ⟨p, hp, ?_⟩
  rw [htranslate, oneClient_mapped]
  rfl

/-- The word is where it was stored. -/
theorem memRun_keeps_data_oneClient : ∃ p, pmmInit kernelAt1M oddBlock 56 = some p ∧
    (memRun layoutAt1M.pml4Table (memBoot bootMem p) oneClient).vmm.mem 0x200008 = 5#64 := by
  obtain ⟨p, hp, hkeeps⟩ := memRun_keeps_data kernelAt1M layoutAt1M oddBlock oddTags
    oddBlock_wellFormed oddBlock_sumsFit 56 (by decide) bootMem bootMem_tables
  obtain ⟨p', hp', hok⟩ := pmmInit_ok kernelAt1M oddBlock_wellFormed oddBlock_sumsFit
    (by decide : mbTotalSize oddBlock ≤ 56)
  obtain rfl := Option.some.inj (hp.symm.trans hp')
  have hallowed := oneClient_allowed hok
  exact ⟨p, hp, hkeeps [.frame .allocFrame]
    [.store 0x200008 5#64, .map 0x200000 0x200000 0#64] 0x200008 hallowed hallowed.2.1.2
    (by decide)⟩

end WaluOs
