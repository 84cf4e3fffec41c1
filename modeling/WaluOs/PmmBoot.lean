import WaluOs.PmmCount

/-!
# `pmm_init` on any information area

Both passes of `pmm_init` are the same two loops, one in the other, and take their strides
from the area: the size of a tag, rounded up to eight bytes in 32 bits, and the entry size
of a memory map. Neither is checked, so the passes end exactly when no stride that they
come to is zero.

Where they end, the state is a function of two things: where the AVAILABLE entries end, and
which frames they touch. So it does not depend on how the memory map is written down.
-/

namespace WaluOs

open Loops

/-! ## Whether the passes end -/

/-- The tag loops of `pmm_init` come to this offset. It does not say in how many rounds, since a
loop that stays at a tag comes to no other. -/
abbrev TagReached (mb : Block) (tag : ℕ) : Prop := Reaches (nextTag mb) (tagsEnd mb) 8 tag

/-- The strides that a tag gives to the two loops. A loop goes on only if its stride is not zero,
and it stays for ever where it is zero. -/
structure Strides (mb : Block) (tag : ℕ) : Prop where
  /-- the size is not zero, and rounding it up does not wrap -/
  size : 0 < tagSize mb tag ∧ tagSize mb tag < 2 ^ 32 - 7
  /-- a memory map with something behind its header has an entry size -/
  entrySize : tagType mb tag = multibootTagTypeMmap → 16 < tagSize mb tag →
    0 < mmapEntrySize mb tag

/-- The tag loops stop at the end of the area. -/
theorem tagsEnd_of_le {mb : Block} {tag : ℕ} (h : mbTotalSize mb ≤ tag) :
    tagsEnd mb tag = true := by
  rw [tagsEnd, decide_eq_false (Nat.not_lt.mpr h)]
  rfl

section

variable {σ : Type} {mb : Block} {body : σ → MmapEntry → σ}

/-- With strides the loops end, whatever they do with the entries: no loop goes around more
often than there are bytes. -/
theorem walkEntries_returns (h : ∀ tag, TagReached mb tag → tagsEnd mb tag = false →
    Strides mb tag) {fuel : ℕ} (hfuel : 2 ^ 32 ≤ fuel) (s : σ) :
    ∃ s', walkEntries mb fuel body s = some s' := by
  have htotal := mbTotalSize_lt mb
  refine walk_returns (mbTotalSize mb) (fun q hq => tagsEnd_of_le hq) (by omega)
    (fun q hq hend => lt_nextTag_iff.mpr (h q hq hend).size) fun q s hq hend => ?_
  split
  · rename_i htype
    have hsize := tagSize_lt mb q
    refine walk_returns (q + tagSize mb q) (fun p hp => ?_) (by omega)
      (fun p hreach hp => ?_) fun p s _ _ => ⟨_, rfl⟩
    · rw [Bool.not_eq_true', decide_eq_false (Nat.not_lt.mpr hp)]
    · rw [Bool.not_eq_false', decide_eq_true_eq] at hp
      have hle : q + 16 ≤ p := hreach.keeps le_rfl fun r _ hr => Nat.le_add_right_of_le hr
      have hentry := (h q hq hend).entrySize htype (by omega)
      exact Nat.lt_add_of_pos_right hentry
  · exact ⟨s, rfl⟩

/-- Without them they do not. -/
theorem walkEntries_stuck {tag : ℕ} (hreach : TagReached mb tag) (hend : tagsEnd mb tag = false)
    (h : ¬Strides mb tag) (fuel : ℕ) (s : σ) : walkEntries mb fuel body s = none := by
  refine walk_stuck hreach hend ?_ fuel s
  by_cases hsize : 0 < tagSize mb tag ∧ tagSize mb tag < 2 ^ 32 - 7
  · -- the entry loop hangs
    right
    intro s
    have hentry : ¬(tagType mb tag = multibootTagTypeMmap → 16 < tagSize mb tag →
        0 < mmapEntrySize mb tag) := fun hentry => h ⟨hsize, hentry⟩
    simp only [Classical.not_imp, Nat.not_lt] at hentry
    obtain ⟨htype, hlarge, hzero⟩ := hentry
    rw [if_pos htype]
    refine walk_stuck .start ?_ (Or.inl ?_) fuel s
    · rw [Bool.not_eq_false', decide_eq_true_eq]
      omega
    · rw [Nat.le_zero.mp hzero, Nat.add_zero]
  · -- the tag loop does
    exact Or.inl (nextTag_eq_self hsize)

end

/-- **`pmm_init` returns** exactly when every tag that its loops come to has its strides. A stride
of 0 keeps a loop in its place, and one that wraps may take it back. -/
theorem pmmInit_returns_iff (image : KernelImage) (mb : Block) :
    (∃ fuel p, pmmInit image mb fuel = some p) ↔
      ∀ tag, TagReached mb tag → tagsEnd mb tag = false → Strides mb tag := by
  constructor
  · rintro ⟨fuel, p, hp⟩ tag hreach hend
    by_contra hstrides
    rw [pmmInit, walkEntries_stuck hreach hend hstrides] at hp
    cases hp
  · intro h
    obtain ⟨highest, hfirst⟩ : ∃ highest, walkEntries mb (2 ^ 32) highestAvailableEnd
        (16 * 1024 * 1024) = some highest := walkEntries_returns h le_rfl _
    obtain ⟨p, hsecond⟩ : ∃ p, walkEntries mb (2 ^ 32) markAvailable (pmmReset highest) =
        some p := walkEntries_returns h le_rfl _
    refine ⟨2 ^ 32, pmmReserve image p, ?_⟩
    rw [pmmInit, hfirst]
    dsimp only
    rw [hsecond]

/-- An area with one tag of type 1 and size 0. -/
def sizelessBlock : Block := fun offset => if offset = 0 then 32 else if offset = 8 then 1 else 0

/-- Neither pass gets behind it. -/
theorem sizelessBlock_hangs : ¬∃ fuel p, pmmInit kernelAt1M sizelessBlock fuel = some p := by
  rintro ⟨fuel, p, hp⟩
  have hstrides : ¬Strides sizelessBlock 8 := fun h => absurd h.size.1 (by decide)
  rw [pmmInit, walkEntries_stuck .start (by decide) hstrides] at hp
  cases hp

/-! ## What the passes find -/

/-- Where the AVAILABLE entries end. -/
def highestEnd (entries : List MmapEntry) : ℕ :=
  ((entries.filter fun e => decide e.IsAvailable).map fun e => e.addr + e.len).foldl max 0

/-- The frames that `mark_region` clears for an entry: from the one with its first byte to the
one with its last byte below 1 GiB. -/
def MmapEntry.Covers (entry : MmapEntry) (frame : ℕ) : Prop :=
  0 < entry.len ∧ entry.addr < 2 ^ 30 ∧ entry.addr / 4096 ≤ frame ∧
    frame < (min (entry.addr + entry.len) (2 ^ 30) + 4095) / 4096

/-- The frame is covered by some AVAILABLE entry. -/
def Covered (entries : List MmapEntry) (frame : ℕ) : Prop :=
  ∃ entry ∈ entries, entry.IsAvailable ∧ entry.Covers frame

/-- A managed frame that `pmm_init` leaves free. -/
def FreeAtBoot (image : KernelImage) (entries : List MmapEntry) (frame : ℕ) : Prop :=
  Covered entries frame ∧ 256 ≤ frame ∧
    ¬(image.kernelStart / 4096 ≤ frame ∧ frame < (image.kernelEnd + 4095) / 4096)

instance (entry : MmapEntry) (frame : ℕ) : Decidable (entry.Covers frame) :=
  inferInstanceAs (Decidable (_ ∧ _))

instance (entries : List MmapEntry) (frame : ℕ) : Decidable (Covered entries frame) :=
  inferInstanceAs (Decidable (∃ entry ∈ entries, _))

instance (image : KernelImage) (entries : List MmapEntry) (frame : ℕ) :
    Decidable (FreeAtBoot image entries frame) :=
  inferInstanceAs (Decidable (_ ∧ _))

/-- The frames from that of `_kernel_start` to that of the last byte are those that the image
touches. The script puts the start at 1 MiB, so that this holds of an empty image as well. -/
def KernelImage.Placed (image : KernelImage) : Prop :=
  image.kernelStart < image.kernelEnd ∨ image.kernelStart % frameSize = 0

/-- Two memory maps of the same RAM. The entries may be in another order, overlap, or be cut into
smaller ones, and be spread over any number of tags. -/
structure SameRam (entries entries' : List MmapEntry) : Prop where
  /-- it ends at the same address -/
  highest : highestEnd entries = highestEnd entries'
  /-- and is in the same frames -/
  covered : ∀ frame, Covered entries frame ↔ Covered entries' frame

theorem foldl_max_le_iff {xs : List ℕ} :
    ∀ {m n : ℕ}, xs.foldl max m ≤ n ↔ m ≤ n ∧ ∀ x ∈ xs, x ≤ n := by
  induction xs with
  | nil => simp
  | cons x xs ih =>
    intro m n
    rw [List.foldl_cons, ih, max_le_iff, List.forall_mem_cons, and_assoc]

theorem highestEnd_le_iff {entries : List MmapEntry} {n : ℕ} :
    highestEnd entries ≤ n ↔ ∀ entry ∈ entries, entry.IsAvailable → entry.addr + entry.len ≤ n := by
  rw [highestEnd, foldl_max_le_iff, List.forall_mem_map, List.forall_mem_filter]
  simp

/-- Order, number and place of the entries do not matter. -/
theorem SameRam.of_mem {entries entries' : List MmapEntry}
    (h : ∀ entry : MmapEntry, entry.IsAvailable → (entry ∈ entries ↔ entry ∈ entries')) :
    SameRam entries entries' := by
  have hends : ∀ n, highestEnd entries ≤ n ↔ highestEnd entries' ≤ n := by
    intro n
    rw [highestEnd_le_iff, highestEnd_le_iff]
    exact ⟨fun hn entry hmem ha => hn entry ((h entry ha).mpr hmem) ha,
      fun hn entry hmem ha => hn entry ((h entry ha).mp hmem) ha⟩
  refine ⟨Nat.le_antisymm ((hends _).mpr le_rfl) ((hends _).mp le_rfl), fun frame => ?_⟩
  constructor
  · rintro ⟨entry, hmem, ha, hcovers⟩
    exact ⟨entry, (h entry ha).mp hmem, ha, hcovers⟩
  · rintro ⟨entry, hmem, ha, hcovers⟩
    exact ⟨entry, (h entry ha).mpr hmem, ha, hcovers⟩

theorem foldl_max_eq (xs : List ℕ) (n : ℕ) : xs.foldl max n = max n (xs.foldl max 0) := by
  conv_lhs => rw [← max_eq_left (Nat.zero_le n)]
  exact List.foldl_assoc

theorem usableEnd_eq (entries : List MmapEntry) :
    usableEnd entries = min (2 ^ 30) (max (16 * 1024 * 1024) (highestEnd entries)) := by
  rw [usableEnd, foldl_max_eq]
  rfl

/-- Below 1 GiB, an entry covers what it touches. -/
theorem MmapEntry.covers_iff (entry : MmapEntry) {frame : ℕ} (h : frame < pmmMaxFrames) :
    entry.Covers frame ↔ Touches entry.addr (entry.addr + entry.len) frame := by
  by_cases hlen : 0 < entry.len
  · rw [touches_iff (Nat.lt_add_of_pos_right hlen) h, MmapEntry.Covers]
    exact and_iff_right hlen
  · constructor
    · exact fun hc => absurd hc.1 hlen
    · rintro ⟨byte, hlow, hhigh, -⟩
      omega

theorem KernelImage.Placed.touches_iff {image : KernelImage} (h : image.Placed) {frame : ℕ}
    (hframe : frame < pmmMaxFrames) : Touches image.kernelStart image.kernelEnd frame ↔
      image.kernelStart / 4096 ≤ frame ∧ frame < (image.kernelEnd + 4095) / 4096 := by
  have hle := image.start_le
  by_cases hne : image.kernelStart < image.kernelEnd
  · rw [WaluOs.touches_iff hne hframe]
    simp only [pmmMaxFrames, pmmMaxMemory, frameSize] at *
    omega
  · have haligned := h.resolve_left hne
    constructor
    · rintro ⟨byte, hlow, hhigh, -⟩
      omega
    · rintro ⟨hlow, hhigh⟩
      simp only [frameSize] at haligned
      omega

/-- The managed frames that `pmm_init` leaves free are those of its specification. -/
theorem bootFree_iff {image : KernelImage} (himage : image.Placed) {entries : List MmapEntry}
    {frame : ℕ} (h : frame < usableEnd entries / frameSize) :
    BootFree image entries frame ↔ FreeAtBoot image entries frame := by
  have hframe : frame < pmmMaxFrames :=
    Nat.lt_of_lt_of_le h (Nat.div_le_div_right (usableEnd_le entries))
  have hmanaged : (frame + 1) * frameSize ≤ usableEnd entries := by
    simp only [frameSize] at *
    omega
  have habove : 2 ^ 20 ≤ frame * frameSize ↔ 256 ≤ frame := by
    simp only [frameSize]
    omega
  have hcovered : Covered entries frame ↔ ∃ entry ∈ entries, entry.IsAvailable ∧
      Touches entry.addr (entry.addr + entry.len) frame := by
    simp only [Covered, MmapEntry.covers_iff _ hframe]
  rw [FreeAtBoot, ← himage.touches_iff hframe, ← habove, hcovered]
  exact ⟨fun hb => ⟨hb.available, hb.above, hb.kernel⟩,
    fun ⟨havailable, hlow, hkernel⟩ => ⟨hmanaged, hlow, hkernel, havailable⟩⟩

/-- The state is what its bits are: the counter counts them. -/
theorem Pmm.Counted.eq {p p' : Pmm} (h : p.Counted) (h' : p'.Counted)
    (htotal : p.totalFrames = p'.totalFrames)
    (hbits : ∀ frame, p.frameBitmap.test frame = p'.frameBitmap.test frame) : p = p' := by
  have hbitmap := Bitmap.eq_of_test hbits
  have hused : p.usedFrames = p'.usedFrames := by rw [h.used, h'.used, hbitmap, htotal]
  cases p
  cases p'
  simp only at hbitmap htotal hused
  rw [hbitmap, htotal, hused]

/-- What `pmm_init` leaves behind on a well-formed area, said of the memory map and the image
alone. -/
structure PmmBooted (image : KernelImage) (entries : List MmapEntry) (p : Pmm) : Prop where
  /-- up to the highest end, at least 16 MiB and at most 1 GiB -/
  total : p.totalFrames = min (2 ^ 30) (max (16 * 1024 * 1024) (highestEnd entries)) / 4096
  /-- the clear bits -/
  free_iff : ∀ frame < p.totalFrames,
    bitmapTest p frame = false ↔ FreeAtBoot image entries frame
  /-- the number of the others -/
  used : p.usedFrames =
    ((Finset.range p.totalFrames).filter fun frame => ¬FreeAtBoot image entries frame).card

theorem bitmapTest_of_lt {p : Pmm} {frame : ℕ} (h : frame < p.totalFrames) :
    bitmapTest p frame = p.frameBitmap.test frame := by
  rw [bitmapTest, if_neg (Nat.not_le.mpr h)]

theorem pmmInit_booted {image : KernelImage} (himage : image.Placed) {mb : Block}
    {tags : List Tag} (h : WellFormed mb tags) (hsum : AvailableFit (mmapEntries tags)) {fuel : ℕ}
    (hfuel : mbTotalSize mb ≤ fuel) :
    ∃ p, pmmInit image mb fuel = some p ∧ PmmBooted image (mmapEntries tags) p := by
  obtain ⟨p, hp, htotal, hfree⟩ := pmmInit_spec image h hsum hfuel
  have hfree_iff : ∀ frame < p.totalFrames,
      bitmapTest p frame = false ↔ FreeAtBoot image (mmapEntries tags) frame := by
    intro frame hframe
    rw [hfree, bootFree_iff himage (htotal ▸ hframe)]
  refine ⟨p, hp, htotal.trans (by rw [usableEnd_eq]), hfree_iff, ?_⟩
  rw [(pmmInit_counted hp).1.used, Bitmap.below]
  congr 1
  refine Finset.filter_congr fun frame hframe => ?_
  have hlt := Finset.mem_range.mp hframe
  rw [← hfree_iff frame hlt, bitmapTest_of_lt hlt, Bool.not_eq_false]

/-- Two areas that describe the same RAM leave the same state behind. -/
theorem PmmBooted.eq {image : KernelImage} {mb mb' : Block} {fuel fuel' : ℕ} {p p' : Pmm}
    {entries entries' : List MmapEntry} (hp : pmmInit image mb fuel = some p)
    (hp' : pmmInit image mb' fuel' = some p') (h : PmmBooted image entries p)
    (h' : PmmBooted image entries' p') (hsame : SameRam entries entries') : p = p' := by
  obtain ⟨hcounted, hbeyond⟩ := pmmInit_counted hp
  obtain ⟨hcounted', hbeyond'⟩ := pmmInit_counted hp'
  have htotal : p.totalFrames = p'.totalFrames := by rw [h.total, h'.total, hsame.highest]
  refine hcounted.eq hcounted' htotal fun frame => ?_
  by_cases hframe : frame < p.totalFrames
  · have hbits : p.frameBitmap.test frame = false ↔ p'.frameBitmap.test frame = false := by
      rw [← bitmapTest_of_lt hframe, ← bitmapTest_of_lt (htotal ▸ hframe), h.free_iff frame hframe,
        h'.free_iff frame (htotal ▸ hframe), FreeAtBoot, FreeAtBoot, hsame.covered]
    rw [← Bool.not_eq_true, ← Bool.not_eq_true, not_iff_not] at hbits
    exact Bool.eq_iff_iff.mpr hbits
  · rw [hbeyond frame (Nat.not_lt.mp hframe), hbeyond' frame (htotal ▸ Nat.not_lt.mp hframe)]

/-- **`pmm_init` frees what the memory map covers**, outside the first MiB and the kernel, and
the state is the same for every area with the same AVAILABLE entries, or else with entries of
the same RAM. -/
theorem pmmInit_layout (image : KernelImage) (himage : image.Placed) (mb : Block)
    (tags : List Tag) (h : WellFormed mb tags) (hsum : AvailableFit (mmapEntries tags))
    (fuel : ℕ) (hfuel : mbTotalSize mb ≤ fuel) :
    ∃ p, pmmInit image mb fuel = some p ∧ PmmBooted image (mmapEntries tags) p ∧
      ∀ mb' tags' fuel', WellFormed mb' tags' → mbTotalSize mb' ≤ fuel' →
        (∀ entry : MmapEntry, entry.IsAvailable →
          (entry ∈ mmapEntries tags ↔ entry ∈ mmapEntries tags')) ∨
        AvailableFit (mmapEntries tags') ∧ SameRam (mmapEntries tags) (mmapEntries tags') →
          pmmInit image mb' fuel' = some p := by
  obtain ⟨p, hp, hbooted⟩ := pmmInit_booted himage h hsum hfuel
  refine ⟨p, hp, hbooted, fun mb' tags' fuel' h' hfuel' hram => ?_⟩
  obtain ⟨hsum', hsame⟩ : AvailableFit (mmapEntries tags') ∧
      SameRam (mmapEntries tags) (mmapEntries tags') := by
    rcases hram with hmem | hsame
    · exact ⟨fun entry hentry ha => hsum entry ((hmem entry ha).mpr hentry) ha, .of_mem hmem⟩
    · exact hsame
  obtain ⟨p', hp', hbooted'⟩ := pmmInit_booted himage h' hsum' hfuel'
  rw [hp', hbooted.eq hp hp' hbooted' hsame]

/-- On the block with the odd entry. -/
theorem pmmInit_layout_oddBlock :
    ∃ p, pmmInit kernelAt1M oddBlock 56 = some p ∧
      PmmBooted kernelAt1M (mmapEntries oddTags) p := by
  obtain ⟨p, hp, hbooted, -⟩ := pmmInit_layout kernelAt1M (Or.inl (by decide)) oddBlock oddTags
    oddBlock_wellFormed oddBlock_sumsFit.available 56 (by decide)
  exact ⟨p, hp, hbooted⟩

end WaluOs
