import Mathlib.Algebra.Group.Nat.Defs
import WaluOs.Loops

/-!
# The multiboot information area

The loader leaves a block of tags in memory: a total size, a reserved word, and
then tags of `type`, `size` and a body, each padded to eight bytes, up to an END
tag. The kernel walks it by pointer arithmetic; here a pointer into the block is
its offset, and the block is the byte at each offset.

`TagsAt` says that a list of tags is stored in the block, and `tagWalk_visits`
and `entryWalk_visits` say which positions the two loops of the kernel then
handle. Offsets are natural numbers: every pointer the loops form lies below
2^34, so no pointer wraps.
-/

namespace WaluOs

open Loops

/-- A block of memory, by offset. It has a byte at every offset, also behind its end, since the
code that reads it does not look at where it ends. -/
abbrev Block : Type := ℕ → UInt8

/-- A little-endian value of `n` bytes. -/
def readLe (mb : Block) (offset : ℕ) : ℕ → ℕ
  | 0 => 0
  | n + 1 => (mb offset).toNat + 256 * readLe mb (offset + 1) n

/-- A `uint32_t` -/
abbrev readU32 (mb : Block) (offset : ℕ) : ℕ := readLe mb offset 4

/-- A `uint64_t` -/
abbrev readU64 (mb : Block) (offset : ℕ) : ℕ := readLe mb offset 8

theorem readLe_lt (mb : Block) (n : ℕ) : ∀ offset, readLe mb offset n < 256 ^ n := by
  induction n with
  | zero => simp [readLe]
  | succ n ih =>
    intro offset
    have hb := (mb offset).toNat_lt
    have hr := ih (offset + 1)
    rw [readLe, Nat.pow_succ]
    omega

/-! ## Tags -/

/-- `MULTIBOOT_TAG_TYPE_END` -/
abbrev multibootTagTypeEnd : ℕ := 0

/-- `MULTIBOOT_TAG_TYPE_MMAP` -/
abbrev multibootTagTypeMmap : ℕ := 6

/-- `MULTIBOOT_TAG_TYPE_FRAMEBUFFER` -/
abbrev multibootTagTypeFramebuffer : ℕ := 8

/-- `MULTIBOOT_MEMORY_AVAILABLE` -/
abbrev multibootMemoryAvailable : ℕ := 1

/-- `mb_total_size` -/
def mbTotalSize (mb : Block) : ℕ := readU32 mb 0

/-- `tag->type` -/
def tagType (mb : Block) (tag : ℕ) : ℕ := readU32 mb tag

/-- `tag->size` -/
def tagSize (mb : Block) (tag : ℕ) : ℕ := readU32 mb (tag + 4)

/-- `(size + 7) & ~7U`, in 32 bits. -/
def align8 (size : ℕ) : ℕ := (size + 7) % 2 ^ 32 / 8 * 8

/-- The step of the tag loops. The size of a tag is rounded up in 32 bits, so a size near the top
of them comes out as 0. -/
def nextTag (mb : Block) (tag : ℕ) : ℕ := tag + align8 (tagSize mb tag)

/-- The negated condition of the tag loops: the area is used up, or the tag is the last one. -/
def tagsEnd (mb : Block) (tag : ℕ) : Bool :=
  !(decide (tag < mbTotalSize mb) && decide (tagType mb tag ≠ multibootTagTypeEnd))

/-- `multiboot_mmap_entry`. The loader promises nothing about these numbers but that they are
there. -/
structure MmapEntry : Type where
  /-- first byte -/
  addr : ℕ
  /-- length in bytes -/
  len : ℕ
  /-- `MULTIBOOT_MEMORY_AVAILABLE`, or some kind of reserved -/
  type : ℕ
  deriving DecidableEq, Repr

/-- The entry at an offset. -/
def readEntry (mb : Block) (entryPtr : ℕ) : MmapEntry :=
  ⟨readU64 mb entryPtr, readU64 mb (entryPtr + 8), readU32 mb (entryPtr + 16)⟩

/-- `entry_size` of the mmap tag at an offset. -/
def mmapEntrySize (mb : Block) (tag : ℕ) : ℕ := readU32 mb (tag + 8)

/-- A tag loop whose body handles the mmap entries and looks at no other tag:
the shape of both passes of `pmm_init`. Each of the two loops gets the fuel. -/
def walkEntries {σ : Type} (mb : Block) (fuel : ℕ) (body : σ → MmapEntry → σ) (s : σ) :
    Option σ :=
  walk (nextTag mb) (tagsEnd mb)
    (fun s tag =>
      if tagType mb tag = multibootTagTypeMmap then
        walk (· + mmapEntrySize mb tag) (fun entryPtr => !decide (entryPtr < tag + tagSize mb tag))
          (fun s entryPtr => some (body s (readEntry mb entryPtr))) fuel (tag + 16) s
      else
        some s)
    fuel 8 s

/-- What the body keeps, the tag loop keeps, whatever is in the block. -/
theorem walkEntries_keeps {σ : Type} {mb : Block} {fuel : ℕ} {body : σ → MmapEntry → σ}
    {Inv : σ → Prop} (hbody : ∀ s entry, Inv s → Inv (body s entry)) {s s' : σ} (hs : Inv s)
    (h : walkEntries mb fuel body s = some s') : Inv s' := by
  refine walk_keeps (fun s tag s' hs h => ?_) hs h
  split at h
  · refine walk_keeps (fun s entryPtr s' hs h => ?_) hs h
    obtain rfl := Option.some.inj h
    exact hbody s _ hs
  · obtain rfl := Option.some.inj h
    exact hs

/-! ## Well-formed blocks -/

/-- The fixed part of a framebuffer tag, `multiboot_tag_framebuffer_common`. The numbers are
natural numbers here and words of various widths in the code; those of a tag that is stored fit.
-/
structure FramebufferTag : Type where
  /-- `framebuffer_addr` -/
  framebufferAddr : ℕ
  /-- `framebuffer_pitch` -/
  framebufferPitch : ℕ
  /-- `framebuffer_width` -/
  framebufferWidth : ℕ
  /-- `framebuffer_height` -/
  framebufferHeight : ℕ
  /-- `framebuffer_bpp` -/
  framebufferBpp : ℕ
  /-- `framebuffer_type` -/
  framebufferType : ℕ
  deriving DecidableEq, Repr

/-- What a tag says, when it is read with the layout of its type. Tags of other types are stepped
over, so of these only the size counts. -/
inductive Tag : Type where
  /-- a memory map, its entries `entrySize` bytes apart -/
  | mmap : ℕ → List MmapEntry → Tag
  /-- a framebuffer description in a tag of this size -/
  | framebuffer : ℕ → FramebufferTag → Tag
  /-- a tag of another type, with its size -/
  | other : ℕ → ℕ → Tag
  deriving DecidableEq, Repr

/-- The memory map entries of a tag. -/
def Tag.entries : Tag → List MmapEntry
  | .mmap _ entries => entries
  | _ => []

/-- The size a tag states. -/
def Tag.size : Tag → ℕ
  | .mmap entrySize entries => 16 + entrySize * entries.length
  | .framebuffer size _ => size
  | .other _ size => size

/-- The tag is stored at an offset, and is at least as large as the fixed part
of its type. -/
def Tag.At (mb : Block) (tag : ℕ) : Tag → Prop
  | .mmap entrySize entries =>
    tagType mb tag = multibootTagTypeMmap ∧ tagSize mb tag = 16 + entrySize * entries.length ∧
      mmapEntrySize mb tag = entrySize ∧ 24 ≤ entrySize ∧
      ∀ k (h : k < entries.length), readEntry mb (tag + 16 + entrySize * k) = entries[k]
  | .framebuffer size fb =>
    tagType mb tag = multibootTagTypeFramebuffer ∧ tagSize mb tag = size ∧ 32 ≤ size ∧
      fb = ⟨readU64 mb (tag + 8), readU32 mb (tag + 16), readU32 mb (tag + 20),
        readU32 mb (tag + 24), (mb (tag + 28)).toNat, (mb (tag + 29)).toNat⟩
  | .other type size =>
    tagType mb tag = type ∧ tagSize mb tag = size ∧ 8 ≤ size ∧ type ≠ multibootTagTypeEnd ∧
      type ≠ multibootTagTypeMmap ∧ type ≠ multibootTagTypeFramebuffer

/-- The tags are stored from an offset on, padded to eight bytes and closed by
an END tag within the total size. -/
def TagsAt (mb : Block) : ℕ → List Tag → Prop
  | tag, [] => tagType mb tag = multibootTagTypeEnd ∧ tag + 8 ≤ mbTotalSize mb
  | tag, t :: ts => t.At mb tag ∧ TagsAt mb (tag + (t.size + 7) / 8 * 8) ts

/-- A well-formed information area with these tags: they stand one after the other from offset 8
on, each aligned to 8 bytes, with an end tag behind them. It is what the loader promises, and what
the loops are compared with. -/
abbrev WellFormed (mb : Block) (tags : List Tag) : Prop := TagsAt mb 8 tags

/-- All memory map entries, in order. A loader may spread them over several tags; both passes see
one list. -/
def mmapEntries (tags : List Tag) : List MmapEntry := tags.flatMap Tag.entries

/-! ## What the walks visit -/

theorem mbTotalSize_lt (mb : Block) : mbTotalSize mb < 2 ^ 32 := readLe_lt mb 4 0

theorem tagSize_lt (mb : Block) (tag : ℕ) : tagSize mb tag < 2 ^ 32 := readLe_lt mb 4 (tag + 4)

/-- A walk gets on from a tag unless its size is 0 or the padding wraps. -/
theorem lt_nextTag_iff {mb : Block} {tag : ℕ} :
    tag < nextTag mb tag ↔ 0 < tagSize mb tag ∧ tagSize mb tag < 2 ^ 32 - 7 := by
  have hlt := tagSize_lt mb tag
  rw [nextTag, align8]
  omega

/-- Then it stays. -/
theorem nextTag_eq_self {mb : Block} {tag : ℕ}
    (h : ¬(0 < tagSize mb tag ∧ tagSize mb tag < 2 ^ 32 - 7)) : nextTag mb tag = tag :=
  Nat.le_antisymm (Nat.not_lt.mp (mt lt_nextTag_iff.mp h)) (Nat.le_add_right _ _)

/-- Everything stored lies within the total size. -/
theorem TagsAt.le {mb : Block} {tags : List Tag} :
    ∀ {tag : ℕ}, TagsAt mb tag tags → tag + 8 ≤ mbTotalSize mb := by
  induction tags with
  | nil => exact fun h => h.2
  | cons t ts ih =>
    intro tag h
    have := ih h.2
    omega

theorem Tag.At.size_eq {mb : Block} {tag : ℕ} {t : Tag} (h : t.At mb tag) :
    tagSize mb tag = t.size := by
  cases t with
  | mmap entrySize entries => exact h.2.1
  | framebuffer size fb => exact h.2.1
  | other type size => exact h.2.1

theorem Tag.At.size_ge {mb : Block} {tag : ℕ} {t : Tag} (h : t.At mb tag) : 8 ≤ t.size := by
  cases t with
  | mmap entrySize entries => simp only [Tag.size]; omega
  | framebuffer size fb => exact Nat.le_trans (by decide) h.2.2.1
  | other type size => exact h.2.2.1

theorem Tag.At.not_end {mb : Block} {tag : ℕ} {t : Tag} (h : t.At mb tag) :
    tagType mb tag ≠ multibootTagTypeEnd := by
  cases t with
  | mmap entrySize entries => rw [h.1]; decide
  | framebuffer size fb => rw [h.1]; decide
  | other type size => rw [h.1]; exact h.2.2.2.1

/-- Where the tags are stored, each behind the one before it and its padding. -/
def tagOffsets : ℕ → List Tag → List ℕ
  | _, [] => []
  | tag, t :: ts => tag :: tagOffsets (tag + (t.size + 7) / 8 * 8) ts

/-- The next tag begins behind this one, padded. -/
theorem TagsAt.nextTag_eq {mb : Block} {tag : ℕ} {t : Tag} {ts : List Tag}
    (h : TagsAt mb tag (t :: ts)) : nextTag mb tag = tag + (t.size + 7) / 8 * 8 := by
  have hrest := TagsAt.le h.2
  have htotal := mbTotalSize_lt mb
  rw [nextTag, h.1.size_eq, align8, Nat.mod_eq_of_lt (by omega)]

/-- A loop over the tags that stops at END and not before visits the stored tags. -/
theorem tagWalk_visits {mb : Block} {stop : ℕ → Bool}
    (hgo : ∀ tag (t : Tag), t.At mb tag → tag + 8 ≤ mbTotalSize mb → stop tag = false)
    (hend : ∀ tag, tagType mb tag = multibootTagTypeEnd → stop tag = true) {tags : List Tag} :
    ∀ {tag : ℕ}, TagsAt mb tag tags →
      Visits (nextTag mb) stop tag (tagOffsets tag tags) := by
  induction tags with
  | nil => exact fun h => hend _ h.1
  | cons t ts ih =>
    intro tag h
    refine ⟨rfl, hgo tag t h.1 (TagsAt.le h), ?_⟩
    rw [h.nextTag_eq]
    exact ih h.2

/-- The loops of `pmm_init` do. -/
theorem pmmWalk_visits {mb : Block} {tags : List Tag} {tag : ℕ} (h : TagsAt mb tag tags) :
    Visits (nextTag mb) (tagsEnd mb) tag (tagOffsets tag tags) := by
  refine tagWalk_visits (fun tag t ht hlt => ?_) (fun tag htype => ?_) h
  · rw [tagsEnd, decide_eq_true (by omega), decide_eq_true ht.not_end]
    rfl
  · rw [tagsEnd, htype]
    simp

/-- Behind the last tag there is the END tag. -/
theorem TagsAt.atEnd {mb : Block} {tags : List Tag} : ∀ {tag : ℕ}, TagsAt mb tag tags →
    TagsAt mb ((nextTag mb)^[tags.length] tag) [] := by
  induction tags with
  | nil => exact fun h => h
  | cons t ts ih =>
    intro tag h
    rw [List.length_cons, Function.iterate_succ_apply, h.nextTag_eq]
    exact ih h.2

theorem length_tagOffsets (tags : List Tag) : ∀ tag, (tagOffsets tag tags).length = tags.length := by
  induction tags with
  | nil => exact fun _ => rfl
  | cons t ts ih => exact fun tag => congrArg (· + 1) (ih _)

/-- There are fewer tags than bytes. -/
theorem TagsAt.length_lt {mb : Block} {tags : List Tag} :
    ∀ {tag : ℕ}, TagsAt mb tag tags → tags.length + tag < mbTotalSize mb := by
  induction tags with
  | nil =>
    intro tag h
    have := h.2
    rw [List.length_nil]
    omega
  | cons t ts ih =>
    intro tag h
    have := ih h.2
    have := h.1.size_ge
    rw [List.length_cons]
    omega

/-- Evenly spaced positions, up to a bound that is one of them. -/
theorem spacedWalk_visits {space : ℕ} (hspace : 0 < space) (n : ℕ) :
    ∀ {p bound : ℕ}, bound = p + space * n →
      Visits (· + space) (fun q => !decide (q < bound)) p
        ((List.range n).map fun k => p + space * k) := by
  induction n with
  | zero =>
    rintro p bound rfl
    simp [Visits]
  | succ n ih =>
    intro p bound hbound
    rw [Nat.mul_succ] at hbound
    rw [List.range_succ_eq_map, List.map_cons, List.map_map]
    refine ⟨by rw [Nat.mul_zero, Nat.add_zero], by simp; omega, ?_⟩
    have hmap : ((fun k => p + space * k) ∘ Nat.succ) = fun k => p + space + space * k := by
      funext k
      rw [Function.comp_apply, Nat.mul_succ]
      omega
    rw [hmap]
    exact ih (hbound.trans (by dsimp only; omega))

/-- The entry loop of a stored mmap tag handles its entries, in order. -/
theorem entryWalk_eq {σ : Type} {mb : Block} {tag entrySize : ℕ} {entries : List MmapEntry}
    (h : (Tag.mmap entrySize entries).At mb tag) {fuel : ℕ} (hfuel : entries.length < fuel)
    (body : σ → MmapEntry → σ) (s : σ) :
    walk (· + mmapEntrySize mb tag) (fun entryPtr => !decide (entryPtr < tag + tagSize mb tag))
        (fun s entryPtr => some (body s (readEntry mb entryPtr))) fuel (tag + 16) s =
      some (entries.foldl body s) := by
  obtain ⟨-, hsize, hspace, hmin, hread⟩ := h
  have hvisits := spacedWalk_visits (Nat.lt_of_lt_of_le (by decide) hmin) entries.length
    (show tag + tagSize mb tag = tag + 16 + entrySize * entries.length by omega)
  rw [hspace, walk_eq hvisits (by simpa using hfuel), foldlM_some]
  congr 1
  have hentries : ((List.range entries.length).map fun k => tag + 16 + entrySize * k).map
      (readEntry mb) = entries := by
    rw [List.map_map]
    apply List.ext_getElem (by simp)
    intro k hk hk'
    simpa using hread k hk'
  conv_rhs => rw [← hentries, List.foldl_map]

/-- Walking a well-formed block folds over its memory map entries. It is the one place where the
byte offsets of the two loops are looked at; all that `pmm_init` does is a fold from here on. -/
theorem walkEntries_eq {σ : Type} {mb : Block} {tags : List Tag} (h : WellFormed mb tags)
    {fuel : ℕ} (hfuel : mbTotalSize mb ≤ fuel) (body : σ → MmapEntry → σ) (s : σ) :
    walkEntries mb fuel body s = some ((mmapEntries tags).foldl body s) := by
  rw [walkEntries, walk_eq (pmmWalk_visits h)
    (by rw [length_tagOffsets]; have := h.length_lt; omega)]
  suffices ∀ (tags : List Tag) (tag : ℕ) (s : σ), TagsAt mb tag tags →
      (tagOffsets tag tags).foldlM _ s = some ((mmapEntries tags).foldl body s) from
    this tags 8 s h
  intro tags
  induction tags with
  | nil => exact fun _ _ _ => rfl
  | cons t ts ih =>
    intro tag s h
    have hts := ih _ (t.entries.foldl body s) h.2
    have htail := TagsAt.le h.2
    rw [mmapEntries, List.flatMap_cons, List.foldl_append, ← mmapEntries, ← hts, tagOffsets,
      List.foldlM_cons]
    have hhead := h.1
    cases t with
    | mmap entrySize entries =>
      have hlen : entries.length < fuel := by
        have hmul := Nat.mul_le_mul_right entries.length hhead.2.2.2.1
        simp only [Tag.size] at htail
        omega
      rw [if_pos hhead.1, entryWalk_eq hhead hlen]
      rfl
    | framebuffer size fb =>
      rw [if_neg (by rw [hhead.1]; decide)]
      rfl
    | other type size =>
      rw [if_neg (by rw [hhead.1]; exact hhead.2.2.2.2.1)]
      rfl

end WaluOs
