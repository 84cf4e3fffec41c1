import WaluOs.PmmRuns
import WaluOs.RadixTable

/-!
# Page tables

`vmm_map_2m` walks PML4, PDPT and PD, creating the two lower tables from frames
of the allocator where they are missing, and writes a 2 MiB leaf. Physical
memory is the 64-bit word at each address. The kernel reads and writes tables
through the identity mapping of the first GiB; `VmmReachable` admits the calls
that keep that window, and `identity_window` shows that they do.

`translate` is the walk that the processor makes. The tables are a radix tree
(`RadixTable`), whose frames the allocator has marked as used (`VmmOk`): that is
why a new table is never an old one, and why writing an entry changes the
translation of its own 2 MiB and nothing else.
-/

namespace WaluOs

open RadixTable

/-! ## The code -/

/-- `PAGE_PRESENT` -/
abbrev pagePresent : BitVec 64 := 1#64 <<< 0
/-- `PAGE_WRITABLE` -/
abbrev pageWritable : BitVec 64 := 1#64 <<< 1
/-- `PAGE_USER` -/
abbrev pageUser : BitVec 64 := 1#64 <<< 2
/-- `PAGE_HUGE` -/
abbrev pageHuge : BitVec 64 := 1#64 <<< 7
/-- `PAGE_NX` -/
abbrev pageNx : BitVec 64 := 1#64 <<< 63
/-- `VMM_FLAG_WRITABLE` -/
abbrev vmmFlagWritable : BitVec 64 := 1#64 <<< 1
/-- `VMM_FLAG_USER` -/
abbrev vmmFlagUser : BitVec 64 := 1#64 <<< 2
/-- `VMM_FLAG_NX` -/
abbrev vmmFlagNx : BitVec 64 := 1#64 <<< 63
/-- `IDENTITY_WINDOW_LIMIT` -/
abbrev identityWindowLimit : ℕ := 2 ^ 30

/-- Physical memory, and the allocator the tables come from. The kernel reaches physical memory
through an identity mapping, so the two addresses of a word are the same number. -/
structure Vmm : Type where
  /-- the word at each address -/
  mem : ℕ → BitVec 64
  /-- the frame allocator -/
  pmm : Pmm

/-- The physical address of a table in its entry. -/
def tableAddr (entry : BitVec 64) : ℕ := (entry &&& 0x000FFFFFFFFFF000#64).toNat

/-- `ensure_table`; `none` is its failure, and `*out_child` the result
otherwise. -/
def ensureTable (s : Vmm) (parent index : ℕ) : Vmm × Option ℕ :=
  if s.mem (slot parent index) &&& pagePresent = 0 then
    let r := pmmAllocFrameLow s.pmm identityWindowLimit
    if r.2 = 0 then
      ({ s with pmm := r.1 }, none)
    else
      let mem := fill s.mem r.2 0#64
      let mem := Function.update mem (slot parent index)
        (BitVec.ofNat 64 r.2 ||| pagePresent ||| pageWritable)
      (⟨mem, r.1⟩, some (tableAddr (mem (slot parent index))))
  else
    (s, some (tableAddr (s.mem (slot parent index))))

/-- `entry_flags` of `vmm_map_2m` -/
def entryFlags (flags : BitVec 64) : BitVec 64 :=
  let entryFlags := pagePresent ||| pageHuge
  let entryFlags := if flags &&& vmmFlagWritable ≠ 0 then entryFlags ||| pageWritable else entryFlags
  let entryFlags := if flags &&& vmmFlagUser ≠ 0 then entryFlags ||| pageUser else entryFlags
  if flags &&& vmmFlagNx ≠ 0 then entryFlags ||| pageNx else entryFlags

/-- The leaf `vmm_map_2m` writes. -/
def leafEntry (physAddr : ℕ) (flags : BitVec 64) : BitVec 64 :=
  (BitVec.ofNat 64 physAddr &&& 0x000FFFFFFFE00000#64) ||| entryFlags flags

/-- `(virt_addr >> 39) & 0x1FF` -/
def pml4Index (virtAddr : ℕ) : ℕ := virtAddr / 2 ^ 39 % 512

/-- `(virt_addr >> 30) & 0x1FF` -/
def pdptIndex (virtAddr : ℕ) : ℕ := virtAddr / 2 ^ 30 % 512

/-- `(virt_addr >> 21) & 0x1FF` -/
def pdIndex (virtAddr : ℕ) : ℕ := virtAddr / 2 ^ 21 % 512

/-- `vmm_map_2m`, with the address of `pml4_table`. A table that was made before the call fails
stays, and its link with it. -/
def vmmMap2m (pml4Table : ℕ) (s : Vmm) (virtAddr physAddr : ℕ) (flags : BitVec 64) : Vmm × Bool :=
  if virtAddr % 2 ^ 21 ≠ 0 ∨ physAddr % 2 ^ 21 ≠ 0 then (s, false)
  else
    match ensureTable s pml4Table (pml4Index virtAddr) with
    | (s, none) => (s, false)
    | (s, some pdpt) =>
      match ensureTable s pdpt (pdptIndex virtAddr) with
      | (s, none) => (s, false)
      | (s, some pd) =>
        (⟨Function.update s.mem (slot pd (pdIndex virtAddr)) (leafEntry physAddr flags), s.pmm⟩,
          true)

/-! ## Bits of entries -/

theorem and_bit (x : BitVec 64) (i : ℕ) :
    x &&& 1#64 <<< i = if x.getLsbD i then 1#64 <<< i else 0#64 :=
  BitVec.and_twoPow x i

theorem and_bit_ne_zero {x : BitVec 64} {i : ℕ} (hi : i < 64) :
    x &&& 1#64 <<< i ≠ 0 ↔ x.getLsbD i = true := by
  rw [and_bit]
  have hbit : (1#64 <<< i).getLsbD i = true := by
    simp [hi]
  cases hx : x.getLsbD i with
  | false => simp
  | true =>
    simp only [if_true, ne_eq, iff_true]
    intro h0
    rw [h0] at hbit
    simp at hbit

theorem testBit_of_dvd {p lo i : ℕ} (h : p % 2 ^ lo = 0) (hi : i < lo) : p.testBit i = false := by
  obtain ⟨k, rfl⟩ := Nat.dvd_of_mod_eq_zero h
  rw [Nat.testBit_two_pow_mul]
  simp [Nat.not_le.mpr hi]

/-- Masking an aligned address within the mask leaves it. -/
theorem ofNat_and_mask {p lo hi : ℕ} {mask : BitVec 64} (hlo : p % 2 ^ lo = 0) (hhi : p < 2 ^ hi)
    (hmask : ∀ i < 64, mask.getLsbD i = (decide (lo ≤ i) && decide (i < hi))) :
    BitVec.ofNat 64 p &&& mask = BitVec.ofNat 64 p := by
  apply BitVec.eq_of_getLsbD_eq
  intro i hi64
  rw [BitVec.getLsbD_and, BitVec.getLsbD_ofNat, hmask i hi64]
  rcases Nat.lt_or_ge i lo with h | h
  · simp [testBit_of_dvd hlo h]
  · rcases Nat.lt_or_ge i hi with h' | h'
    · simp [h, h']
    · have : p.testBit i = false :=
        Nat.testBit_lt_two_pow (Nat.lt_of_lt_of_le hhi (Nat.pow_le_pow_right (by decide) h'))
      simp [this]

/-- Low bits do not overlap an aligned address. -/
theorem ofNat_and_low {p lo c : ℕ} (hlo : p % 2 ^ lo = 0) (hc : c < 2 ^ lo) :
    BitVec.ofNat 64 p &&& BitVec.ofNat 64 c = 0#64 := by
  apply BitVec.eq_of_getLsbD_eq
  intro i _
  rw [BitVec.getLsbD_and, BitVec.getLsbD_ofNat, BitVec.getLsbD_ofNat, BitVec.getLsbD_zero]
  rcases Nat.lt_or_ge i lo with h | h
  · simp [testBit_of_dvd hlo h]
  · have : c.testBit i = false :=
      Nat.testBit_lt_two_pow (Nat.lt_of_lt_of_le hc (Nat.pow_le_pow_right (by decide) h))
    simp [this]

theorem tableMask_getLsbD : ∀ i < 64, (0x000FFFFFFFFFF000#64).getLsbD i =
    (decide (12 ≤ i) && decide (i < 52)) := by
  decide

theorem leafMask_getLsbD : ∀ i < 64, (0x000FFFFFFFE00000#64).getLsbD i =
    (decide (21 ≤ i) && decide (i < 52)) := by
  decide

/-- The entry that links a table: supervisor, writable, present. -/
def tableEntry (table : ℕ) : BitVec 64 :=
  BitVec.ofNat 64 table ||| pagePresent ||| pageWritable

theorem tableAddr_tableEntry {t : ℕ} (ht : t % 4096 = 0) (hlt : t < 2 ^ 52) :
    tableAddr (tableEntry t) = t := by
  have hflags : (pagePresent ||| pageWritable) &&& 0x000FFFFFFFFFF000#64 = 0#64 := by decide
  rw [tableAddr, tableEntry, BitVec.or_assoc, BitVec.and_or_distrib_right, hflags,
    BitVec.or_zero, ofNat_and_mask (show t % 2 ^ 12 = 0 from ht) hlt tableMask_getLsbD, BitVec.toNat_ofNat]
  exact Nat.mod_eq_of_lt (hlt.trans (by decide))

theorem tableEntry_getLsbD_zero (t : ℕ) : (tableEntry t).getLsbD 0 = true := by
  simp [tableEntry]

/-- No link of the kernel is a user link. -/
theorem tableEntry_getLsbD_two {t : ℕ} (ht : t % 4096 = 0) : (tableEntry t).getLsbD 2 = false := by
  have hbit : t.testBit 2 = false := testBit_of_dvd (show t % 2 ^ 12 = 0 from ht) (by decide)
  rw [tableEntry, BitVec.getLsbD_or, BitVec.getLsbD_or, BitVec.getLsbD_ofNat, hbit]
  decide

/-- The physical address of a 2 MiB leaf. -/
def leafAddr (entry : BitVec 64) : ℕ := (entry &&& 0x000FFFFFFFE00000#64).toNat

theorem entryFlags_and_leafMask (flags : BitVec 64) :
    entryFlags flags &&& 0x000FFFFFFFE00000#64 = 0#64 := by
  rw [entryFlags]
  split_ifs <;> decide

theorem leafAddr_leafEntry {p : ℕ} (hp : p % 2 ^ 21 = 0) (hlt : p < 2 ^ 52)
    (flags : BitVec 64) : leafAddr (leafEntry p flags) = p := by
  rw [leafAddr, leafEntry, BitVec.and_or_distrib_right, entryFlags_and_leafMask, BitVec.or_zero,
    BitVec.and_assoc, BitVec.and_self, ofNat_and_mask hp hlt leafMask_getLsbD,
    BitVec.toNat_ofNat]
  exact Nat.mod_eq_of_lt (hlt.trans (by decide))

/-- Outside the address field, a leaf has the bits of its flags. -/
theorem leafEntry_getLsbD (p : ℕ) (flags : BitVec 64) {i : ℕ} (hi : i < 64)
    (hout : i < 21 ∨ 52 ≤ i) :
    (leafEntry p flags).getLsbD i = (entryFlags flags).getLsbD i := by
  have hmask : (0x000FFFFFFFE00000#64).getLsbD i = false := by
    rw [leafMask_getLsbD i hi]
    rcases hout with h | h
    · simp [Nat.not_le.mpr h]
    · simp [Nat.not_lt.mpr h]
  rw [leafEntry, BitVec.getLsbD_or, BitVec.getLsbD_and, hmask, Bool.and_false, Bool.false_or]

/-- Present and huge always; writable, user and NX as requested. -/
theorem entryFlags_bits (flags : BitVec 64) :
    (entryFlags flags).getLsbD 0 = true ∧ (entryFlags flags).getLsbD 7 = true ∧
      (entryFlags flags).getLsbD 1 = flags.getLsbD 1 ∧
      (entryFlags flags).getLsbD 2 = flags.getLsbD 2 ∧
      (entryFlags flags).getLsbD 63 = flags.getLsbD 63 := by
  have hw := and_bit_ne_zero (x := flags) (i := 1) (by decide)
  have hu := and_bit_ne_zero (x := flags) (i := 2) (by decide)
  have hn := and_bit_ne_zero (x := flags) (i := 63) (by decide)
  rw [entryFlags]
  simp only [hw, hu, hn]
  cases flags.getLsbD 1 <;> cases flags.getLsbD 2 <;> cases flags.getLsbD 63 <;> decide

/-! ## The walk of the processor -/

/-- The table an entry links. -/
def pteLink (entry : BitVec 64) : Option ℕ :=
  if entry.getLsbD 0 then some (tableAddr entry) else none

/-- The indices that lead to the PD of an address. -/
def walkPath (addr : ℕ) : List ℕ := [pdptIndex addr, pml4Index addr]

/-- The sign-extended 48-bit addresses. -/
def Canonical (addr : ℕ) : Prop := addr < 2 ^ 47 ∨ 2 ^ 64 - 2 ^ 47 ≤ addr ∧ addr < 2 ^ 64

instance (addr : ℕ) : Decidable (Canonical addr) :=
  inferInstanceAs (Decidable (addr < 2 ^ 47 ∨ 2 ^ 64 - 2 ^ 47 ≤ addr ∧ addr < 2 ^ 64))

/-- What an address is mapped to, with the permission bits of the leaf. What the levels above the
leaf allow is not part of it. -/
structure Mapping : Type where
  /-- physical address -/
  phys : ℕ
  /-- leaf bit 1 -/
  writable : Bool
  /-- leaf bit 2 -/
  user : Bool
  /-- leaf bit 63 -/
  nx : Bool
  deriving DecidableEq, Repr

/-- What a leaf maps the `offset`-th byte of its 2 MiB to. -/
def leafMapping (entry : BitVec 64) (offset : ℕ) : Option Mapping :=
  if entry.getLsbD 0 && entry.getLsbD 7 then
    some ⟨leafAddr entry + offset, entry.getLsbD 1, entry.getLsbD 2, entry.getLsbD 63⟩
  else none

/-- Address translation: PML4, PDPT, PD, 2 MiB leaf. It reads the tables as the processor does and
has no cache, and an address that is not canonical has no translation. -/
def translate (mem : ℕ → BitVec 64) (pml4Table addr : ℕ) : Option Mapping :=
  if Canonical addr then
    match leafWord pteLink mem pml4Table (walkPath addr) (pdIndex addr) with
    | some entry => leafMapping entry (addr % 2 ^ 21)
    | none => none
  else none

theorem walkPath_valid (addr : ℕ) : ValidPath 2 (walkPath addr) := by
  refine ⟨le_rfl, ?_⟩
  simp only [walkPath, List.mem_cons, List.not_mem_nil, or_false, forall_eq_or_imp, forall_eq]
  exact ⟨Nat.mod_lt _ (by decide), Nat.mod_lt _ (by decide)⟩

theorem pdIndex_lt (addr : ℕ) : pdIndex addr < 512 := Nat.mod_lt _ (by decide)

/-- Two canonical addresses use the same leaf exactly if they lie in the same
2 MiB. -/
theorem sameLeaf_iff {a b : ℕ} (ha : Canonical a) (hb : Canonical b) :
    walkPath a = walkPath b ∧ pdIndex a = pdIndex b ↔ a / 2 ^ 21 = b / 2 ^ 21 := by
  simp only [walkPath, pml4Index, pdptIndex, pdIndex, List.cons.injEq, and_true, Canonical] at *
  omega

theorem leafMapping_leafEntry {p : ℕ} (hp : p % 2 ^ 21 = 0) (hlt : p < 2 ^ 52)
    (flags : BitVec 64) (offset : ℕ) :
    leafMapping (leafEntry p flags) offset =
      some ⟨p + offset, flags.getLsbD 1, flags.getLsbD 2, flags.getLsbD 63⟩ := by
  obtain ⟨h0, h7, h1, h2, h63⟩ := entryFlags_bits flags
  have hbit := fun {i} => leafEntry_getLsbD p flags (i := i)
  rw [leafMapping, hbit (by decide) (by decide), hbit (by decide) (by decide),
    hbit (by decide) (by decide), hbit (by decide) (by decide), hbit (by decide) (by decide),
    h0, h7, h1, h2, h63, leafAddr_leafEntry hp hlt]
  rfl

/-! ## Creating tables -/

/-- A word that links nothing or is a table entry. -/
def LinkWord (entry : BitVec 64) : Prop :=
  entry.getLsbD 0 = true → ∃ t, t % 4096 = 0 ∧ t < 2 ^ 52 ∧ entry = tableEntry t

/-- A frame that may be a table: in the identity window, and in use. -/
def TableFrame (p : Pmm) (t : ℕ) : Prop :=
  t + 4096 ≤ identityWindowLimit ∧ bitmapTest p (t / 4096) = true

/-- The page tables are well formed. The first field is what makes a 0 from the allocator a
failure and not a frame. -/
structure VmmOk (pml4Table : ℕ) (s : Vmm) : Prop where
  /-- 0 is never an allocation -/
  frameZero : bitmapTest s.pmm 0 = true
  /-- tables are distinct frames in use -/
  tables : TablesOk pteLink s.mem pml4Table 2 (TableFrame s.pmm) LinkWord

theorem pteLink_tableEntry {t : ℕ} (ht : t % 4096 = 0) (hlt : t < 2 ^ 52) :
    pteLink (tableEntry t) = some t := by
  rw [pteLink, if_pos (tableEntry_getLsbD_zero t), tableAddr_tableEntry ht hlt]

/-- What is in use stays in use when a frame is taken. -/
theorem bitmapTest_bitmapSet_mono {p : Pmm} {f g : ℕ} (h : bitmapTest p g = true) :
    bitmapTest (bitmapSet p f) g = true := by
  rw [bitmapTest] at h ⊢
  rw [totalFrames_bitmapSet, test_bitmapSet]
  split_ifs at h ⊢ <;> first | rfl | exact h

/-- `pmm_alloc_frame_low` fails when nothing below the limit is free, and else
takes a free frame that is not frame 0. -/
theorem pmmAllocFrameLow_cases {p : Pmm} (h0 : bitmapTest p 0 = true) (limit : ℕ) :
    (pmmAllocFrameLow p limit = (p, 0) ∧
      ∀ f, (f + 1) * 4096 ≤ limit → bitmapTest p f = true) ∨
    ∃ f, (f + 1) * 4096 ≤ limit ∧ bitmapTest p f = false ∧ f * 4096 ≠ 0 ∧
      bitmapTest (bitmapSet p f) f = true ∧
      pmmAllocFrameLow p limit = (bitmapSet p f, f * 4096) := by
  rw [pmmAllocFrameLow]
  rcases pmmAllocBelow_cases p
    (if limit / frameSize > p.totalFrames then p.totalFrames else limit / frameSize) with
    ⟨heq, hall⟩ | ⟨f, hf, hclear, -, heq⟩
  · refine Or.inl ⟨heq, fun f hf => ?_⟩
    by_cases hlt : f < p.totalFrames
    · refine hall f ?_
      simp only [frameSize]
      split_ifs <;> omega
    · rw [bitmapTest, if_pos (Nat.not_lt.mp hlt)]
  · have hlt : f < p.totalFrames := by
      by_contra hge
      rw [bitmapTest, if_pos (Nat.not_lt.mp hge)] at hclear
      cases hclear
    refine Or.inr ⟨f, ?_, hclear, ?_, ?_, heq⟩
    · simp only [frameSize] at hf
      split_ifs at hf <;> omega
    · rintro hzero
      obtain rfl : f = 0 := by omega
      rw [h0] at hclear
      cases hclear
    · rw [bitmapTest_bitmapSet hlt, if_pos rfl]

/-- A frame that is free is no table. -/
theorem VmmOk.fresh {pml4Table : ℕ} {s : Vmm} (h : VmmOk pml4Table s) {f : ℕ}
    (hf : bitmapTest s.pmm f = false) :
    RadixTable.Fresh pteLink s.mem pml4Table 2 (f * 4096) := by
  refine ⟨Nat.mul_mod_left _ _, fun path hpath hnode => ?_⟩
  have hused := (h.tables.frame path _ hpath hnode).2
  rw [Nat.mul_div_cancel _ (by decide), hf] at hused
  cases hused

theorem ensureTable_present {s : Vmm} {parent index : ℕ}
    (h : (s.mem (slot parent index)).getLsbD 0 = true) :
    ensureTable s parent index = (s, some (tableAddr (s.mem (slot parent index)))) := by
  rw [ensureTable, if_neg ((and_bit_ne_zero (by decide)).mpr h)]

/-- The three outcomes of `ensure_table`: the entry is present, there is no
frame, or a frame is cleared and linked. -/
theorem ensureTable_cases {s : Vmm} (h0 : bitmapTest s.pmm 0 = true) (parent index : ℕ) :
    ((s.mem (slot parent index)).getLsbD 0 = true ∧
      ensureTable s parent index = (s, some (tableAddr (s.mem (slot parent index))))) ∨
    (s.mem (slot parent index)).getLsbD 0 = false ∧
      ((ensureTable s parent index = (s, none) ∧
        ∀ f, (f + 1) * 4096 ≤ identityWindowLimit → bitmapTest s.pmm f = true) ∨
      ∃ f, (f + 1) * 4096 ≤ identityWindowLimit ∧ bitmapTest s.pmm f = false ∧
        bitmapTest (bitmapSet s.pmm f) f = true ∧
        ensureTable s parent index =
          (⟨attach s.mem (f * 4096) 0#64 parent index (tableEntry (f * 4096)), bitmapSet s.pmm f⟩,
            some (f * 4096))) := by
  have hand := and_bit_ne_zero (x := s.mem (slot parent index)) (i := 0) (by decide)
  by_cases hpresent : s.mem (slot parent index) &&& pagePresent = 0
  · have hbit : (s.mem (slot parent index)).getLsbD 0 = false := by
      rw [← Bool.not_eq_true, ← hand]
      exact not_not.mpr hpresent
    rw [ensureTable, if_pos hpresent]
    refine Or.inr ⟨hbit, ?_⟩
    rcases pmmAllocFrameLow_cases h0 identityWindowLimit with
      ⟨heq, hall⟩ | ⟨f, hlimit, hclear, hne, hset, heq⟩
    · rw [heq]
      exact Or.inl ⟨rfl, hall⟩
    · have haddr : tableAddr (tableEntry (f * 4096)) = f * 4096 := by
        refine tableAddr_tableEntry (Nat.mul_mod_left _ _) ?_
        simp only [identityWindowLimit] at hlimit
        omega
      refine Or.inr ⟨f, hlimit, hclear, hset, ?_⟩
      rw [heq, if_neg hne]
      dsimp only
      rw [Function.update_self]
      exact congrArg (Prod.mk _ ∘ some) haddr
  · have hbit := hand.mp hpresent
    exact Or.inl ⟨hbit, ensureTable_present hbit⟩

/-- `ensure_table` for the slot of a table: it finds or creates the table below
and changes no translation. -/
theorem ensureTable_spec {pml4Table : ℕ} {s : Vmm} (h : VmmOk pml4Table s) {index parent : ℕ}
    {path : List ℕ} (hpath : ValidPath 2 (index :: path))
    (hparent : nodeAddr pteLink s.mem pml4Table path = some parent) :
    VmmOk pml4Table (ensureTable s parent index).1 ∧
      (∀ addr, translate (ensureTable s parent index).1.mem pml4Table addr =
        translate s.mem pml4Table addr) ∧
      (∀ child, (ensureTable s parent index).2 = some child →
        nodeAddr pteLink (ensureTable s parent index).1.mem pml4Table (index :: path) =
          some child) ∧
      ((ensureTable s parent index).2 = none → ∀ f, (f + 1) * 4096 ≤ identityWindowLimit →
        bitmapTest (ensureTable s parent index).1.pmm f = true) := by
  rcases ensureTable_cases h.frameZero parent index with
    ⟨hbit, heq⟩ | ⟨hbit, ⟨heq, hall⟩ | ⟨f, hlimit, hclear, hset, heq⟩⟩
  · rw [heq]
    refine ⟨h, fun _ => rfl, fun child hc => ?_, fun hc => by cases hc⟩
    rw [nodeAddr_cons hparent, pteLink, if_pos hbit]
    exact hc
  · rw [heq]
    refine ⟨h, fun _ => rfl, ?_, fun _ => hall⟩
    rintro child ⟨⟩
  · have hslot : pteLink (s.mem (slot parent index)) = none := by
      rw [pteLink, hbit]
      rfl
    have hf := h.fresh hclear
    have hlt : f * 4096 < 2 ^ 52 := by
      simp only [identityWindowLimit] at hlimit
      omega
    have hlink := pteLink_tableEntry hf.1 hlt
    have hempty : pteLink 0#64 = none := rfl
    rw [heq]
    refine ⟨⟨bitmapTest_bitmapSet_mono h.frameZero, ?_⟩, fun addr => ?_, fun child hc => ?_,
      fun hc => by cases hc⟩
    · have hframe : TableFrame (bitmapSet s.pmm f) (f * 4096) := by
        refine ⟨by omega, ?_⟩
        rw [Nat.mul_div_cancel _ (by decide)]
        exact hset
      exact h.tables.attach hf hpath hparent hslot hempty hlink
        (fun t ht => ⟨ht.1, bitmapTest_bitmapSet_mono ht.2⟩) hframe
        (fun hzero => absurd hzero (by decide)) fun _ => ⟨f * 4096, hf.1, hlt, rfl⟩
    · rw [translate, translate, leafWord_attach h.tables hf hpath hparent hslot hempty hlink
        (walkPath_valid addr) rfl (pdIndex_lt addr)]
      by_cases hnew : walkPath addr = index :: path
      · -- a new PD is empty, and before there was none
        have hold : nodeAddr pteLink s.mem pml4Table (walkPath addr) = none := by
          rw [hnew, nodeAddr_cons hparent, hslot]
        rw [if_pos hnew, leafWord, hold]
        rfl
      · rw [if_neg hnew]
    · obtain rfl := Option.some.inj hc
      refine (nodeAddr_attach h.tables hf hpath hparent hslot hempty hlink hpath).trans ?_
      rw [if_pos rfl]

/-! ## Mapping -/

/-- The bytes of a call: the 2 MiB from its virtual address on. -/
def InPage (virtAddr addr : ℕ) : Prop := virtAddr ≤ addr ∧ addr < virtAddr + 2 ^ 21

/-- What a call does to the translation: a success maps its 2 MiB and nothing else, a failure
nothing. Physical addresses have 52 bits, so a call with a larger one maps to what is left of it.
The tables do not occur in the statement, only what the processor makes of them. -/
structure MapSpec (pml4Table : ℕ) (s : Vmm) (virtAddr physAddr : ℕ) (flags : BitVec 64)
    (r : Vmm × Bool) : Prop where
  /-- the 2 MiB are mapped as requested -/
  mapped : physAddr < 2 ^ 52 → r.2 = true → ∀ addr, InPage virtAddr addr →
    translate r.1.mem pml4Table addr =
      some ⟨physAddr + (addr - virtAddr), flags.getLsbD 1, flags.getLsbD 2, flags.getLsbD 63⟩
  /-- every other address keeps its translation -/
  others : r.2 = true → ∀ addr, ¬InPage virtAddr addr →
    translate r.1.mem pml4Table addr = translate s.mem pml4Table addr
  /-- a failure changes no translation -/
  failed : r.2 = false → ∀ addr,
    translate r.1.mem pml4Table addr = translate s.mem pml4Table addr
  /-- it has one of two reasons: a misaligned argument, or no frame left -/
  reason : r.2 = false → virtAddr % 2 ^ 21 ≠ 0 ∨ physAddr % 2 ^ 21 ≠ 0 ∨
    ∀ f, (f + 1) * 4096 ≤ identityWindowLimit → bitmapTest r.1.pmm f = true

/-- The two table steps of `vmm_map_2m` and its write. A call fails and the translation is as
before, or it writes one word of a page directory that its path leads to; all that is proved about
calls is read off these cases. -/
theorem vmmMap2m_cases {pml4Table : ℕ} {s : Vmm} (h : VmmOk pml4Table s) (virtAddr physAddr : ℕ)
    (flags : BitVec 64) :
    ((vmmMap2m pml4Table s virtAddr physAddr flags).2 = false ∧
      VmmOk pml4Table (vmmMap2m pml4Table s virtAddr physAddr flags).1 ∧
      (∀ addr, translate (vmmMap2m pml4Table s virtAddr physAddr flags).1.mem pml4Table addr =
        translate s.mem pml4Table addr) ∧
      (virtAddr % 2 ^ 21 ≠ 0 ∨ physAddr % 2 ^ 21 ≠ 0 ∨
        ∀ f, (f + 1) * 4096 ≤ identityWindowLimit →
          bitmapTest (vmmMap2m pml4Table s virtAddr physAddr flags).1.pmm f = true)) ∨
    virtAddr % 2 ^ 21 = 0 ∧ physAddr % 2 ^ 21 = 0 ∧ ∃ s' pd, VmmOk pml4Table s' ∧
      (∀ addr, translate s'.mem pml4Table addr = translate s.mem pml4Table addr) ∧
      nodeAddr pteLink s'.mem pml4Table (walkPath virtAddr) = some pd ∧
      vmmMap2m pml4Table s virtAddr physAddr flags =
        (⟨setLeaf s'.mem pd (pdIndex virtAddr) (leafEntry physAddr flags), s'.pmm⟩, true) := by
  rw [vmmMap2m]
  by_cases halign : virtAddr % 2 ^ 21 ≠ 0 ∨ physAddr % 2 ^ 21 ≠ 0
  · rw [if_pos halign]
    exact Or.inl ⟨rfl, h, fun _ => rfl, halign.elim Or.inl fun hp => Or.inr (Or.inl hp)⟩
  · rw [if_neg halign]
    obtain ⟨hvirt, hphys⟩ := not_or.mp halign
    have hpath := walkPath_valid virtAddr
    obtain ⟨hok₁, ht₁, hchild₁, hfull₁⟩ := ensureTable_spec h hpath.tail rfl
    rcases he₁ : ensureTable s pml4Table (pml4Index virtAddr) with ⟨s₁, pdpt⟩
    rw [he₁] at hok₁ ht₁ hchild₁ hfull₁
    cases pdpt with
    | none => exact Or.inl ⟨rfl, hok₁, ht₁, Or.inr (Or.inr (hfull₁ rfl))⟩
    | some pdpt =>
      obtain ⟨hok₂, ht₂, hchild₂, hfull₂⟩ := ensureTable_spec hok₁ hpath (hchild₁ pdpt rfl)
      dsimp only
      rcases he₂ : ensureTable s₁ pdpt (pdptIndex virtAddr) with ⟨s₂, pd⟩
      rw [he₂] at hok₂ ht₂ hchild₂ hfull₂
      have ht := fun addr => (ht₂ addr).trans (ht₁ addr)
      cases pd with
      | none => exact Or.inl ⟨rfl, hok₂, ht, Or.inr (Or.inr (hfull₂ rfl))⟩
      | some pd =>
        exact Or.inr ⟨not_not.mp hvirt, not_not.mp hphys, s₂, pd, hok₂, ht, hchild₂ pd rfl, rfl⟩

/-- The tables stay well formed. -/
theorem VmmOk.map {pml4Table : ℕ} {s : Vmm} (h : VmmOk pml4Table s) (virtAddr physAddr : ℕ)
    (flags : BitVec 64) : VmmOk pml4Table (vmmMap2m pml4Table s virtAddr physAddr flags).1 := by
  rcases vmmMap2m_cases h virtAddr physAddr flags with
    ⟨-, hok, -⟩ | ⟨-, -, s', pd, hok, -, hnode, heq⟩
  · exact hok
  · rw [heq]
    exact ⟨hok.frameZero, hok.tables.setLeaf (walkPath_valid virtAddr) rfl (pdIndex_lt virtAddr)
      hnode⟩

/-- One call, for a canonical address. The write changes the leaf of one path, and the addresses
with that path are the 2 MiB of the page. -/
theorem vmmMap2m_spec {pml4Table : ℕ} {s : Vmm} (h : VmmOk pml4Table s) {virtAddr : ℕ}
    (hvirt : Canonical virtAddr) (physAddr : ℕ) (flags : BitVec 64) :
    MapSpec pml4Table s virtAddr physAddr flags
      (vmmMap2m pml4Table s virtAddr physAddr flags) := by
  rcases vmmMap2m_cases h virtAddr physAddr flags with
    ⟨hfail, -, ht, hreason⟩ | ⟨hva, hpa, s', pd, hok, ht, hnode, heq⟩
  · exact ⟨fun _ hc => absurd (hfail.symm.trans hc) (by decide),
      fun hc => absurd (hfail.symm.trans hc) (by decide), fun _ => ht, fun _ => hreason⟩
  · rw [heq]
    have hword := fun addr => leafWord_setLeaf (w := leafEntry physAddr flags) hok.tables
      (walkPath_valid virtAddr) rfl (pdIndex_lt virtAddr) hnode (walkPath_valid addr)
      (pdIndex_lt addr)
    refine ⟨fun hphys _ addr hin => ?_, fun _ addr hout => ?_, fun hc => (by cases hc),
      fun hc => (by cases hc)⟩
    · have hcanon : Canonical addr := by
        simp only [Canonical, InPage] at *
        omega
      have hsame : addr / 2 ^ 21 = virtAddr / 2 ^ 21 := by
        simp only [InPage] at hin
        omega
      rw [translate, if_pos hcanon, hword, if_pos ((sameLeaf_iff hcanon hvirt).mpr hsame)]
      dsimp only
      rw [leafMapping_leafEntry hpa hphys]
      congr 3
      simp only [InPage] at hin
      omega
    · rw [← ht, translate, translate]
      by_cases hcanon : Canonical addr
      · have hother : ¬(walkPath addr = walkPath virtAddr ∧ pdIndex addr = pdIndex virtAddr) := by
          intro hsame
          have := (sameLeaf_iff hcanon hvirt).mp hsame
          exact hout ⟨by omega, by omega⟩
        rw [hword, if_neg hother]
      · rw [if_neg hcanon, if_neg hcanon]

end WaluOs
