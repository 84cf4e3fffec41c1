import WaluOs.Vmm

/-!
# From the boot tables on

`boot.S` maps the first GiB to itself with 512 leaves. `VmmReachable` are the
states that `vmm_map_2m` calls lead to from there, the frames coming from an
allocator after `pmm_init` and any history of it. The calls are those that keep
the identity window, as all calls of the kernel do: they map above it, or map a
page to itself.

In every such state a call changes the translation of its own 2 MiB only
(`vmmMap2m_reachable`). It never makes a page accessible from user mode
(`effectiveUser_map`): the leaf gets the user bit, but no entry above it has it.
-/

namespace WaluOs

open RadixTable

/-- Where the linker has put the boot tables, one after the other inside the
kernel image, which lies within the window the boot tables map. -/
structure BootLayout (image : KernelImage) : Type where
  /-- `pml4_table` -/
  pml4Table : ℕ
  /-- `.align 4096` -/
  aligned : pml4Table % 4096 = 0
  /-- inside the image -/
  start_le : image.kernelStart ≤ pml4Table
  /-- with the two tables behind it -/
  end_le : pml4Table + 3 * 4096 ≤ image.kernelEnd
  /-- the image is mapped -/
  window : image.kernelEnd ≤ identityWindowLimit

/-- `pdpt_table` -/
def BootLayout.pdptTable {image : KernelImage} (l : BootLayout image) : ℕ := l.pml4Table + 4096

/-- `pd_table` -/
def BootLayout.pdTable {image : KernelImage} (l : BootLayout image) : ℕ := l.pml4Table + 2 * 4096

/-- The contents `boot.S` gives the three tables: one entry each in the two upper ones, and the
first GiB as 512 leaves of 2 MiB. -/
structure BootTables {image : KernelImage} (l : BootLayout image) (mem : ℕ → BitVec 64) : Prop where
  /-- `.quad pdpt_table + 0x03`, then zeros -/
  pml4 : ∀ i < 512, mem (slot l.pml4Table i) =
    if i = 0 then BitVec.ofNat 64 (l.pdptTable + 0x03) else 0#64
  /-- `.quad pd_table + 0x03`, then zeros -/
  pdpt : ∀ i < 512, mem (slot l.pdptTable i) =
    if i = 0 then BitVec.ofNat 64 (l.pdTable + 0x03) else 0#64
  /-- `.quad (i << 21) + 0x83` -/
  pd : ∀ i < 512, mem (slot l.pdTable i) = BitVec.ofNat 64 (i * 2 ^ 21 + 0x83)

/-- A call that keeps the identity window. The kernel reads and zeroes its tables through the
window, so a call that moved a part of it would make the tables unreachable. -/
structure WindowCall (virtAddr physAddr : ℕ) : Prop where
  /-- an address the processor can form -/
  canonical : Canonical virtAddr
  /-- above the window, or the identity -/
  keeps : identityWindowLimit ≤ virtAddr ∨ virtAddr = physAddr

/-- The states that calls lead to, from the boot tables and the allocator behind any disciplined
history. The calls need not succeed. -/
inductive VmmReachable (image : KernelImage) (l : BootLayout image) : Vmm → Prop where
  /-- the boot tables, and the allocator after `pmm_init` and some history -/
  | boot {mb : Block} {tags : List Tag} {fuel : ℕ} {p : Pmm} {ops : List PmmOp}
      {mem : ℕ → BitVec 64} : WellFormed mb tags → SumsFit (mmapEntries tags) →
      mbTotalSize mb ≤ fuel → pmmInit image mb fuel = some p → Disciplined ⟨p, ∅⟩ ops →
      BootTables l mem → VmmReachable image l ⟨mem, (pmmRun ⟨p, ∅⟩ ops).pmm⟩
  /-- one more call -/
  | map {s : Vmm} {virtAddr physAddr : ℕ} (flags : BitVec 64) : VmmReachable image l s →
      WindowCall virtAddr physAddr →
      VmmReachable image l (vmmMap2m l.pml4Table s virtAddr physAddr flags).1

/-! ## The boot tables -/

/-- Adding flags to an aligned address sets their bits. -/
theorem ofNat_add_low {p lo c : ℕ} (hlo : p % 2 ^ lo = 0) (hc : c < 2 ^ lo) :
    BitVec.ofNat 64 (p + c) = BitVec.ofNat 64 p ||| BitVec.ofNat 64 c := by
  rw [BitVec.ofNat_add, BitVec.add_eq_or_of_and_eq_zero _ _ (ofNat_and_low hlo hc)]

theorem bootLink_eq {t : ℕ} (ht : t % 4096 = 0) : BitVec.ofNat 64 (t + 0x03) = tableEntry t := by
  have hflags : pagePresent ||| pageWritable = BitVec.ofNat 64 0x03 := by decide
  rw [ofNat_add_low (show t % 2 ^ 12 = 0 from ht) (by decide), tableEntry, BitVec.or_assoc, hflags]

theorem bootLeaf_eq {i : ℕ} (hi : i < 512) :
    BitVec.ofNat 64 (i * 2 ^ 21 + 0x83) = leafEntry (i * 2 ^ 21) vmmFlagWritable := by
  have hflags : entryFlags vmmFlagWritable = BitVec.ofNat 64 0x83 := by decide
  rw [ofNat_add_low (Nat.mul_mod_left _ _) (by decide), leafEntry, hflags,
    ofNat_and_mask (Nat.mul_mod_left _ _) (show i * 2 ^ 21 < 2 ^ 52 by omega) leafMask_getLsbD]

section

variable {image : KernelImage} {l : BootLayout image} {mem : ℕ → BitVec 64}

theorem BootLayout.pdptTable_aligned (l : BootLayout image) : l.pdptTable % 4096 = 0 := by
  have := l.aligned
  rw [BootLayout.pdptTable]
  omega

theorem BootLayout.pdTable_aligned (l : BootLayout image) : l.pdTable % 4096 = 0 := by
  have := l.aligned
  rw [BootLayout.pdTable]
  omega

theorem BootLayout.pdTable_lt (l : BootLayout image) : l.pdTable + 4096 ≤ identityWindowLimit := by
  have := l.end_le
  have := l.window
  rw [BootLayout.pdTable]
  omega

theorem BootTables.pml4_link (h : BootTables l mem) {i : ℕ} (hi : i < 512) :
    pteLink (mem (slot l.pml4Table i)) = if i = 0 then some l.pdptTable else none := by
  have hlt := l.pdTable_lt
  rw [h.pml4 i hi]
  split_ifs
  · rw [bootLink_eq l.pdptTable_aligned, pteLink_tableEntry l.pdptTable_aligned]
    simp only [BootLayout.pdTable, BootLayout.pdptTable, identityWindowLimit] at *
    omega
  · rfl

theorem BootTables.pdpt_link (h : BootTables l mem) {i : ℕ} (hi : i < 512) :
    pteLink (mem (slot l.pdptTable i)) = if i = 0 then some l.pdTable else none := by
  have hlt := l.pdTable_lt
  rw [h.pdpt i hi]
  split_ifs
  · rw [bootLink_eq l.pdTable_aligned, pteLink_tableEntry l.pdTable_aligned]
    simp only [identityWindowLimit] at hlt
    omega
  · rfl

/-- The nodes of the boot tree. -/
theorem BootTables.nodes (h : BootTables l mem) {path : List ℕ} (hpath : ValidPath 2 path) :
    nodeAddr pteLink mem l.pml4Table path =
      if path = [] then some l.pml4Table else if path = [0] then some l.pdptTable
      else if path = [0, 0] then some l.pdTable else none := by
  match path, hpath with
  | [], _ => rfl
  | [i], hpath =>
    rw [nodeAddr_cons rfl, h.pml4_link hpath.head]
    by_cases hi : i = 0 <;> simp [hi]
  | [j, i], hpath =>
    have hi := hpath.tail.head
    by_cases h0 : i = 0
    · subst h0
      have hpdpt : nodeAddr pteLink mem l.pml4Table [0] = some l.pdptTable := by
        rw [nodeAddr_cons rfl, h.pml4_link hi, if_pos rfl]
      rw [nodeAddr_cons hpdpt, h.pdpt_link hpath.head]
      by_cases hj : j = 0 <;> simp [hj]
    · rw [nodeAddr_cons_none (by rw [nodeAddr_cons rfl, h.pml4_link hi, if_neg h0])]
      simp [h0]
  | i :: j :: k :: rest, hpath => exact absurd hpath.length (by simp)

/-- A boot link, and an entry without one. -/
theorem linkWord_boot {t : ℕ} (ht : t % 4096 = 0) (hlt : t < 2 ^ 52) (i : ℕ) :
    LinkWord (if i = 0 then BitVec.ofNat 64 (t + 0x03) else 0#64) := by
  split_ifs
  · exact fun _ => ⟨t, ht, hlt, bootLink_eq ht⟩
  · exact fun hbit => absurd hbit (by decide)

/-- A frame of the kernel image is never free. -/
theorem PmmState.Ok.kernel_used {entries : List MmapEntry} {s : PmmState}
    (h : s.Ok image entries) {t : ℕ} (hstart : image.kernelStart ≤ t) (hend : t < image.kernelEnd) :
    bitmapTest s.pmm (t / 4096) = true := by
  by_contra hne
  have hfree := (h.free_iff _).mp (Bool.not_eq_true _ ▸ hne)
  exact hfree.1.kernel ⟨t, hstart, hend, rfl⟩

/-- The boot tables are the only ones: a PML4, a PDPT below it and a PD below that. -/
theorem BootTables.node_cases (h : BootTables l mem) {path : List ℕ} {t : ℕ}
    (hpath : ValidPath 2 path) (ht : nodeAddr pteLink mem l.pml4Table path = some t) :
    path = [] ∧ t = l.pml4Table ∨ path = [0] ∧ t = l.pml4Table + 4096 ∨
      path = [0, 0] ∧ t = l.pml4Table + 2 * 4096 := by
  rw [h.nodes hpath] at ht
  split_ifs at ht with h₁ h₂ h₃
  · exact Or.inl ⟨h₁, (Option.some.inj ht).symm⟩
  · exact Or.inr (Or.inl ⟨h₂, (Option.some.inj ht).symm⟩)
  · exact Or.inr (Or.inr ⟨h₃, (Option.some.inj ht).symm⟩)

/-- The boot tables are well formed. They lie inside the kernel, which `pmm_init` keeps in use, so
no frame that the allocator returns is one of them. -/
theorem BootTables.ok (h : BootTables l mem) {entries : List MmapEntry} {s : PmmState}
    (hs : s.Ok image entries) : VmmOk l.pml4Table ⟨mem, s.pmm⟩ := by
  have hend := l.end_le
  have hstart := l.start_le
  have hwindow := l.window
  have haligned := l.aligned
  refine ⟨?_, ⟨fun path t hp ht => ?_, fun path t hp ht => ⟨?_, ?_⟩, fun i path t hp ht => ?_,
    fun path path' t hp hp' ht ht' => ?_⟩⟩
  · by_contra hne
    have hfree := (hs.free_iff 0).mp (Bool.not_eq_true _ ▸ hne)
    exact hfree.1.ne_zero (Nat.zero_mul _)
  · rcases h.node_cases hp ht with ⟨-, rfl⟩ | ⟨-, rfl⟩ | ⟨-, rfl⟩ <;> omega
  · rcases h.node_cases hp ht with ⟨-, rfl⟩ | ⟨-, rfl⟩ | ⟨-, rfl⟩ <;> omega
  · refine hs.kernel_used ?_ ?_
    · rcases h.node_cases hp ht with ⟨-, rfl⟩ | ⟨-, rfl⟩ | ⟨-, rfl⟩ <;> omega
    · rcases h.node_cases hp ht with ⟨-, rfl⟩ | ⟨-, rfl⟩ | ⟨-, rfl⟩ <;> omega
  · change LinkWord (mem (slot t i))
    have hlen := hp.length
    rw [List.length_cons] at hlen
    rcases h.node_cases hp.tail ht with ⟨-, rfl⟩ | ⟨-, rfl⟩ | ⟨rfl, -⟩
    · rw [h.pml4 i hp.head]
      refine linkWord_boot l.pdptTable_aligned ?_ i
      simp only [BootLayout.pdptTable, identityWindowLimit] at *
      omega
    · rw [show l.pml4Table + 4096 = l.pdptTable from rfl, h.pdpt i hp.head]
      refine linkWord_boot l.pdTable_aligned ?_ i
      simp only [BootLayout.pdTable, identityWindowLimit] at *
      omega
    · simp at hlen
  · rcases h.node_cases hp ht with ⟨rfl, h₁⟩ | ⟨rfl, h₁⟩ | ⟨rfl, h₁⟩ <;>
      rcases h.node_cases hp' ht' with ⟨rfl, h₂⟩ | ⟨rfl, h₂⟩ | ⟨rfl, h₂⟩ <;>
      first | rfl | omega

/-- The boot tables map the first GiB to itself. -/
theorem BootTables.translate_window (h : BootTables l mem) {addr : ℕ}
    (haddr : addr < identityWindowLimit) :
    translate mem l.pml4Table addr = some ⟨addr, true, false, false⟩ := by
  have hcanon : Canonical addr := Or.inl (haddr.trans (by decide))
  have hpath : walkPath addr = [0, 0] := by
    simp only [walkPath, pdptIndex, pml4Index, identityWindowLimit] at *
    rw [Nat.div_eq_of_lt haddr, Nat.div_eq_of_lt (haddr.trans (by decide)), Nat.zero_mod]
  have hnode : nodeAddr pteLink mem l.pml4Table [0, 0] = some l.pdTable := by
    rw [h.nodes ⟨le_rfl, by simp⟩]
    rfl
  have hindex : pdIndex addr * 2 ^ 21 + addr % 2 ^ 21 = addr := by
    simp only [pdIndex, identityWindowLimit] at *
    omega
  rw [translate, if_pos hcanon, leafWord, hpath, hnode]
  dsimp only
  rw [h.pd _ (pdIndex_lt addr), bootLeaf_eq (pdIndex_lt addr),
    leafMapping_leafEntry (Nat.mul_mod_left _ _)
      (show pdIndex addr * 2 ^ 21 < 2 ^ 52 by have := pdIndex_lt addr; omega), hindex]
  rfl

end

/-! ## Every reachable state -/

/-- The window through which the kernel reads its tables: the first GiB, where virtual and
physical addresses are the same. -/
def IdentityWindow (mem : ℕ → BitVec 64) (pml4Table : ℕ) : Prop :=
  ∀ addr < identityWindowLimit, ∃ m, translate mem pml4Table addr = some m ∧ m.phys = addr

section

variable {image : KernelImage} {l : BootLayout image} {s : Vmm}

theorem VmmReachable.ok (h : VmmReachable image l s) : VmmOk l.pml4Table s := by
  induction h with
  | boot hwell hsum hfuel hinit hops hboot =>
    obtain ⟨p', hp', hok⟩ := pmmInit_ok image hwell hsum hfuel
    obtain rfl := Option.some.inj (hinit.symm.trans hp')
    exact hboot.ok (hok.run hops)
  | map flags _ _ ih => exact ih.map _ _ flags

/-- Calls that keep the window do keep it. -/
theorem IdentityWindow.map (h : IdentityWindow s.mem l.pml4Table) (hok : VmmOk l.pml4Table s)
    {virtAddr physAddr : ℕ} (hcall : WindowCall virtAddr physAddr) (flags : BitVec 64) :
    IdentityWindow (vmmMap2m l.pml4Table s virtAddr physAddr flags).1.mem l.pml4Table := by
  intro addr haddr
  have hspec := vmmMap2m_spec hok hcall.canonical physAddr flags
  cases hr : (vmmMap2m l.pml4Table s virtAddr physAddr flags).2 with
  | false =>
    rw [hspec.failed hr]
    exact h addr haddr
  | true =>
    by_cases hin : InPage virtAddr addr
    · -- inside the window the page is mapped to itself
      obtain ⟨hle, hlt⟩ := hin
      obtain hself : virtAddr = physAddr := hcall.keeps.resolve_left (by omega)
      have hphys : physAddr < 2 ^ 52 := by
        simp only [identityWindowLimit] at haddr
        omega
      refine ⟨_, hspec.mapped hphys hr addr ⟨hle, hlt⟩, ?_⟩
      dsimp only
      omega
    · rw [hspec.others hr addr hin]
      exact h addr haddr

/-- The window is there in every reachable state. -/
theorem identity_window (h : VmmReachable image l s) : IdentityWindow s.mem l.pml4Table := by
  induction h with
  | boot _ _ _ _ _ hboot => exact fun addr haddr => ⟨_, hboot.translate_window haddr, rfl⟩
  | map flags hs hcall ih => exact ih.map hs.ok hcall flags

end

/-! ## A kernel at 1 MiB -/

/-- Its boot tables lie at its start. -/
def layoutAt1M : BootLayout kernelAt1M :=
  ⟨0x100000, by decide, by decide, by decide, by decide⟩

/-- Memory with the boot tables, zero elsewhere. -/
def bootMem : ℕ → BitVec 64 := fun addr =>
  if addr = 0x100000 then 0x101003#64
  else if addr = 0x101000 then 0x102003#64
  else if 0x102000 ≤ addr ∧ addr < 0x103000 then BitVec.ofNat 64 ((addr - 0x102000) / 8 * 2 ^ 21 + 0x83)
  else 0#64

theorem bootMem_tables : BootTables layoutAt1M bootMem := by
  refine ⟨fun i hi => ?_, fun i hi => ?_, fun i hi => ?_⟩
  · rw [show slot layoutAt1M.pml4Table i = 0x100000 + 8 * i from rfl, bootMem]
    by_cases h : i = 0
    · rw [if_pos (by omega), if_pos h]
      rfl
    · rw [if_neg (by omega), if_neg (by omega), if_neg (by omega), if_neg h]
  · rw [show slot layoutAt1M.pdptTable i = 0x101000 + 8 * i from rfl, bootMem]
    by_cases h : i = 0
    · rw [if_neg (by omega), if_pos (by omega), if_pos h]
      rfl
    · rw [if_neg (by omega), if_neg (by omega), if_neg (by omega), if_neg h]
  · rw [show slot layoutAt1M.pdTable i = 0x102000 + 8 * i from rfl, bootMem, if_neg (by omega),
      if_neg (by omega), if_pos (by omega), Nat.add_sub_cancel_left,
      Nat.mul_div_cancel_left _ (by decide)]

/-- A reachable state with these tables. -/
theorem exists_reachable_bootMem : ∃ p, VmmReachable kernelAt1M layoutAt1M ⟨bootMem, p⟩ := by
  obtain ⟨p, hp, -⟩ := pmmInit_ok kernelAt1M oddBlock_wellFormed oddBlock_sumsFit
    (by decide : mbTotalSize oddBlock ≤ 56)
  have hnone : Disciplined ⟨p, ∅⟩ [] := trivial
  exact ⟨p, .boot oddBlock_wellFormed oddBlock_sumsFit
    (by decide : mbTotalSize oddBlock ≤ 56) hp hnone bootMem_tables⟩

/-- Mapping a page of the window, whose tables exist, succeeds. -/
theorem vmmMap2m_bootMem (p : Pmm) (virtAddr physAddr : ℕ) (hvirt : virtAddr % 2 ^ 21 = 0)
    (hphys : physAddr % 2 ^ 21 = 0) (hwindow : virtAddr < identityWindowLimit)
    (flags : BitVec 64) :
    (vmmMap2m layoutAt1M.pml4Table ⟨bootMem, p⟩ virtAddr physAddr flags).2 = true := by
  have hindex : pml4Index virtAddr = 0 ∧ pdptIndex virtAddr = 0 := by
    simp only [pml4Index, pdptIndex, identityWindowLimit] at *
    omega
  have hpml4 : (bootMem (slot 0x100000 0)).getLsbD 0 = true := by decide
  have hpdpt : (bootMem (slot 0x101000 0)).getLsbD 0 = true := by decide
  rw [vmmMap2m, if_neg (by omega), hindex.1, hindex.2, ensureTable_present hpml4]
  dsimp only
  rw [ensureTable_present hpdpt]

/-! ## Mapping -/

/-- **A call maps its own 2 MiB and changes no other translation; a failed call
changes none**, in every reachable state. -/
theorem vmmMap2m_reachable (image : KernelImage) (l : BootLayout image) (s : Vmm)
    (h : VmmReachable image l s) (virtAddr physAddr : ℕ) (flags : BitVec 64)
    (hvirt : virtAddr < 2 ^ 47) (hwindow : identityWindowLimit ≤ virtAddr ∨ virtAddr = physAddr) :
    MapSpec l.pml4Table s virtAddr physAddr flags
        (vmmMap2m l.pml4Table s virtAddr physAddr flags) ∧
      IdentityWindow (vmmMap2m l.pml4Table s virtAddr physAddr flags).1.mem l.pml4Table :=
  ⟨vmmMap2m_spec h.ok (Or.inl hvirt) physAddr flags,
    (identity_window h).map h.ok ⟨Or.inl hvirt, hwindow⟩ flags⟩

/-- The page at 2 MiB, made read-only: it is still mapped to itself. -/
theorem vmmMap2m_reachable_bootMem : ∃ s, VmmReachable kernelAt1M layoutAt1M s ∧
    translate (vmmMap2m layoutAt1M.pml4Table s 0x200000 0x200000 0).1.mem
      layoutAt1M.pml4Table 0x212345 = some ⟨0x212345, false, false, false⟩ := by
  obtain ⟨p, hp⟩ := exists_reachable_bootMem
  have hspec := (vmmMap2m_reachable kernelAt1M layoutAt1M ⟨bootMem, p⟩ hp 0x200000 0x200000 0
    (by decide) (Or.inr rfl)).1
  have hr := vmmMap2m_bootMem p 0x200000 0x200000 (by decide) (by decide) (by decide) 0
  exact ⟨⟨bootMem, p⟩, hp, hspec.mapped (by decide) hr 0x212345 ⟨by decide, by decide⟩⟩

/-! ## User pages -/

/-- The user accessibility the processor computes: the user bits of the three
entries on the walk, together. -/
def effectiveUser (mem : ℕ → BitVec 64) (pml4Table addr : ℕ) : Bool :=
  let pml4e := mem (slot pml4Table (pml4Index addr))
  let pdpte := mem (slot (tableAddr pml4e) (pdptIndex addr))
  let pde := mem (slot (tableAddr pdpte) (pdIndex addr))
  pml4e.getLsbD 2 && pdpte.getLsbD 2 && pde.getLsbD 2

/-- A link entry that is present has no user bit. -/
theorem LinkWord.supervisor {entry : BitVec 64} (h : LinkWord entry)
    (hpresent : entry.getLsbD 0 = true) : entry.getLsbD 2 = false := by
  obtain ⟨t, ht, -, rfl⟩ := h hpresent
  exact tableEntry_getLsbD_two ht

/-- Where a PD exists, the walk to it is not a user walk. -/
theorem VmmOk.effectiveUser {pml4Table : ℕ} {s : Vmm} (h : VmmOk pml4Table s) {addr pd : ℕ}
    (hnode : nodeAddr pteLink s.mem pml4Table (walkPath addr) = some pd) :
    effectiveUser s.mem pml4Table addr = false := by
  have hword : LinkWord (s.mem (slot pml4Table (pml4Index addr))) :=
    h.tables.word _ [] pml4Table (walkPath_valid addr).tail rfl
  have hpresent : (s.mem (slot pml4Table (pml4Index addr))).getLsbD 0 = true := by
    by_contra hne
    have hnone : nodeAddr pteLink s.mem pml4Table [pml4Index addr] = none := by
      rw [nodeAddr_cons rfl, pteLink, if_neg hne]
    rw [walkPath, nodeAddr_cons_none hnone] at hnode
    cases hnode
  rw [WaluOs.effectiveUser, hword.supervisor hpresent]
  rfl

/-- After a successful call no byte of its page is accessible from user mode. -/
theorem effectiveUser_map {pml4Table : ℕ} {s : Vmm} (h : VmmOk pml4Table s) {virtAddr : ℕ}
    (physAddr : ℕ) (flags : BitVec 64)
    (hr : (vmmMap2m pml4Table s virtAddr physAddr flags).2 = true) {addr : ℕ}
    (hin : InPage virtAddr addr) :
    effectiveUser (vmmMap2m pml4Table s virtAddr physAddr flags).1.mem pml4Table addr = false := by
  rcases vmmMap2m_cases h virtAddr physAddr flags with
    ⟨hfail, -⟩ | ⟨hva, -, s', pd, hok, -, hnode, heq⟩
  · rw [hfail] at hr
    cases hr
  · have hpath : walkPath addr = walkPath virtAddr := by
      obtain ⟨hle, hlt⟩ := hin
      simp only [walkPath, pdptIndex, pml4Index, List.cons.injEq, and_true]
      omega
    have hmapped := h.map virtAddr physAddr flags
    rw [heq] at hmapped ⊢
    refine hmapped.effectiveUser (Eq.trans ?_ hnode)
    rw [hpath]
    exact nodeAddr_setLeaf hok.tables (walkPath_valid virtAddr) rfl (pdIndex_lt virtAddr) hnode
      (walkPath_valid virtAddr)

/-- **Effective user access is what was requested exactly when none was**, after every successful
call in every reachable state. The entries above a leaf never have the bit, and they are all
asked. -/
theorem effectiveUser_iff (image : KernelImage) (l : BootLayout image) (s : Vmm)
    (h : VmmReachable image l s) (virtAddr physAddr : ℕ) (flags : BitVec 64)
    (hr : (vmmMap2m l.pml4Table s virtAddr physAddr flags).2 = true) :
    (∀ addr, InPage virtAddr addr →
      (effectiveUser (vmmMap2m l.pml4Table s virtAddr physAddr flags).1.mem l.pml4Table addr =
        true ↔ flags &&& vmmFlagUser ≠ 0)) ↔ flags &&& vmmFlagUser = 0 := by
  constructor
  · intro hall
    by_contra hflag
    have htrue := (hall virtAddr ⟨le_rfl, by omega⟩).mpr hflag
    rw [effectiveUser_map h.ok physAddr flags hr ⟨le_rfl, by omega⟩] at htrue
    cases htrue
  · intro hflag addr hin
    rw [effectiveUser_map h.ok physAddr flags hr hin]
    exact ⟨fun hf => absurd hf (by decide), fun hne => absurd hflag hne⟩

/-- A page mapped for user mode is not accessible from user mode. -/
theorem effectiveUser_bootMem : ∃ s, VmmReachable kernelAt1M layoutAt1M s ∧
    (vmmMap2m layoutAt1M.pml4Table s 0x200000 0x200000 vmmFlagUser).2 = true ∧
    vmmFlagUser &&& vmmFlagUser ≠ 0 ∧
    effectiveUser (vmmMap2m layoutAt1M.pml4Table s 0x200000 0x200000 vmmFlagUser).1.mem
      layoutAt1M.pml4Table 0x200000 = false := by
  obtain ⟨p, hp⟩ := exists_reachable_bootMem
  have hr := vmmMap2m_bootMem p 0x200000 0x200000 (by decide) (by decide) (by decide) vmmFlagUser
  exact ⟨⟨bootMem, p⟩, hp, hr, by decide, effectiveUser_map hp.ok _ _ hr ⟨le_rfl, by decide⟩⟩

/-- Without the user flag the two agree. -/
theorem effectiveUser_iff_bootMem : ∃ s, VmmReachable kernelAt1M layoutAt1M s ∧
    ∀ addr, InPage 0x200000 addr →
      (effectiveUser (vmmMap2m layoutAt1M.pml4Table s 0x200000 0x200000 vmmFlagWritable).1.mem
        layoutAt1M.pml4Table addr = true ↔ vmmFlagWritable &&& vmmFlagUser ≠ 0) := by
  obtain ⟨p, hp⟩ := exists_reachable_bootMem
  have hr := vmmMap2m_bootMem p 0x200000 0x200000 (by decide) (by decide) (by decide)
    vmmFlagWritable
  exact ⟨⟨bootMem, p⟩, hp, (effectiveUser_iff kernelAt1M layoutAt1M ⟨bootMem, p⟩ hp 0x200000 0x200000
    vmmFlagWritable hr).mpr (by decide)⟩

end WaluOs
