import WaluOs.Console
import WaluOs.Pmm

/-!
# Probing the framebuffer

`video_probe_multiboot` walks over the tags of the information area like the two passes of
`pmm_init`, and keeps what the last framebuffer tag says. It leaves the loop at a tag that is
too small for its kind.

What one round does depends on the bytes at its tag alone, so a round (`ProbeRound`) is what
it stores, what it reads and the tag that it goes on with.
-/

namespace WaluOs

open Loops

/-! ## The code -/

/-- `video_framebuffer_info_t`, the colour fields included. The console does not read these, but
the probe writes them, and what it reads for that may lie outside the area. -/
structure VideoInfo : Type extends VideoFramebufferInfo where
  redPos : UInt8
  redSize : UInt8
  greenPos : UInt8
  greenSize : UInt8
  bluePos : UInt8
  blueSize : UInt8

/-- `g_fb` after the `memset`. -/
def VideoInfo.zero : VideoInfo where
  present := false
  mapped := false
  physAddr := 0
  sizeBytes := 0
  width := 0
  height := 0
  pitch := 0
  bpp := 0
  type := 0
  redPos := 0
  redSize := 0
  greenPos := 0
  greenSize := 0
  bluePos := 0
  blueSize := 0

/-- `MULTIBOOT_FRAMEBUFFER_TYPE_RGB` -/
abbrev multibootFramebufferTypeRgb : UInt8 := 1

/-- `sizeof(struct multiboot_tag)` -/
abbrev sizeofTag : ℕ := 8

/-- `sizeof(struct multiboot_tag_framebuffer_common)` -/
abbrev sizeofFramebufferCommon : ℕ := 32

/-- `sizeof(struct multiboot_tag_framebuffer_rgb)` -/
abbrev sizeofFramebufferRgb : ℕ := 38

/-- One round of the tag loop: what it stores, what it reads for that, and where it goes on.
Whether the loop ends and what it touches are told from the same rounds. -/
structure ProbeRound : Type where
  /-- what it does to `g_fb` -/
  store : VideoInfo → VideoInfo
  /-- what it reads: offset and number of bytes -/
  reads : List (ℕ × ℕ)
  /-- the tag that it goes on with, if the loop is not left -/
  next : Option ℕ

/-- `tag->type` and `tag->size` -/
def headerReads (tag : ℕ) : List (ℕ × ℕ) := [(tag, 4), (tag + 4, 4)]

/-- The fields of `multiboot_tag_framebuffer_common` that are stored. -/
def storeFramebuffer (mb : Block) (tag : ℕ) (gFb : VideoInfo) : VideoInfo :=
  let height := UInt32.ofNat (readU32 mb (tag + 24))
  let pitch := UInt32.ofNat (readU32 mb (tag + 16))
  { gFb with
    present := true
    mapped := false
    physAddr := UInt64.ofNat (readU64 mb (tag + 8))
    width := UInt32.ofNat (readU32 mb (tag + 20))
    height := height
    pitch := pitch
    bpp := mb (tag + 28)
    type := mb (tag + 29)
    sizeBytes := pitch.toUInt64 * height.toUInt64 }

/-- Where they are. -/
def framebufferReads (tag : ℕ) : List (ℕ × ℕ) :=
  [(tag + 8, 8), (tag + 20, 4), (tag + 24, 4), (tag + 16, 4), (tag + 28, 1), (tag + 29, 1)]

/-- The fields of `multiboot_tag_framebuffer_rgb` behind them. -/
def storeColors (mb : Block) (tag : ℕ) (gFb : VideoInfo) : VideoInfo :=
  { gFb with
    redPos := mb (tag + 32)
    redSize := mb (tag + 33)
    greenPos := mb (tag + 34)
    greenSize := mb (tag + 35)
    bluePos := mb (tag + 36)
    blueSize := mb (tag + 37) }

/-- Where these are. -/
def colorReads (tag : ℕ) : List (ℕ × ℕ) :=
  [(tag + 32, 1), (tag + 33, 1), (tag + 34, 1), (tag + 35, 1), (tag + 36, 1), (tag + 37, 1)]

/-- The colour fields of a tag are read. -/
abbrev HasColors (mb : Block) (tag : ℕ) : Prop :=
  mb (tag + 29) = multibootFramebufferTypeRgb ∧ sizeofFramebufferRgb ≤ tagSize mb tag

/-- The loop condition and the loop body of `video_probe_multiboot`. -/
def probeRound (mb : Block) (tag : ℕ) : ProbeRound :=
  if mbTotalSize mb ≤ tag then
    ⟨id, [], none⟩
  else if tagType mb tag = multibootTagTypeEnd then
    ⟨id, [(tag, 4)], none⟩
  else if tagSize mb tag < sizeofTag then
    ⟨id, headerReads tag, none⟩
  else if tagType mb tag = multibootTagTypeFramebuffer then
    if tagSize mb tag < sizeofFramebufferCommon then
      ⟨id, headerReads tag, none⟩
    else if HasColors mb tag then
      ⟨fun gFb => storeColors mb tag (storeFramebuffer mb tag gFb),
        headerReads tag ++ framebufferReads tag ++ colorReads tag, some (nextTag mb tag)⟩
    else
      ⟨storeFramebuffer mb tag, headerReads tag ++ framebufferReads tag, some (nextTag mb tag)⟩
  else
    ⟨id, headerReads tag, some (nextTag mb tag)⟩

/-- The tag loop, which may go around `fuel` times. -/
def probeLoop (mb : Block) : ℕ → ℕ → VideoInfo → Option VideoInfo
  | 0, _, _ => none
  | fuel + 1, tag, gFb =>
    match (probeRound mb tag).next with
    | none => some ((probeRound mb tag).store gFb)
    | some tag' => probeLoop mb fuel tag' ((probeRound mb tag).store gFb)

/-- The tags at which its first `n` rounds begin, the one included at which it is left. -/
def probeTags (mb : Block) : ℕ → ℕ → List ℕ
  | 0, _ => []
  | n + 1, tag =>
    tag :: match (probeRound mb tag).next with
      | none => []
      | some tag' => probeTags mb n tag'

/-- What they read. -/
def probeReads (mb : Block) (n tag : ℕ) : List (ℕ × ℕ) :=
  (probeTags mb n tag).flatMap fun tag => (probeRound mb tag).reads

/-- `video_probe_multiboot`: the new `g_fb`. It is zero until a tag describes a framebuffer, and
there is no result if the fuel is not enough for the loop. -/
def videoProbeMultiboot (multibootInfoAddr : UInt32) (mb : Block) (fuel : ℕ) : Option VideoInfo :=
  if multibootInfoAddr = 0 then some .zero
  else if mbTotalSize mb < 16 then some .zero
  else probeLoop mb fuel 8 .zero

/-! ## The loop as a walk -/

/-- The loop is left at the tag: the area is used up there, or the tag is the end tag, or it
claims to be smaller than its header or than the fixed part of a framebuffer. -/
def probeEnds (mb : Block) (tag : ℕ) : Bool := (probeRound mb tag).next.isNone

variable {mb : Block} {tag : ℕ}

theorem probeEnds_iff : probeEnds mb tag = true ↔
    mbTotalSize mb ≤ tag ∨ tagType mb tag = multibootTagTypeEnd ∨ tagSize mb tag < sizeofTag ∨
      tagType mb tag = multibootTagTypeFramebuffer ∧
        tagSize mb tag < sizeofFramebufferCommon := by
  rw [probeEnds, probeRound]
  split_ifs <;> simp [*]

/-- A round that goes on goes on with the next tag. -/
theorem probeRound_next (h : probeEnds mb tag = false) :
    (probeRound mb tag).next = some (nextTag mb tag) := by
  rw [probeEnds] at h
  revert h
  rw [probeRound]
  split_ifs <;> simp

/-- A round that does not has stored nothing. -/
theorem probeRound_ends (h : probeEnds mb tag = true) :
    (probeRound mb tag).next = none ∧ (probeRound mb tag).store = id := by
  rw [probeEnds] at h
  revert h
  rw [probeRound]
  split_ifs <;> simp

theorem probeLoop_eq_walk (mb : Block) : ∀ fuel tag gFb, probeLoop mb fuel tag gFb =
    walk (nextTag mb) (probeEnds mb) (fun gFb tag => some ((probeRound mb tag).store gFb)) fuel tag
      gFb := by
  intro fuel
  induction fuel with
  | zero => exact fun _ _ => rfl
  | succ fuel ih =>
    intro tag gFb
    rw [probeLoop, walk]
    cases hend : probeEnds mb tag with
    | true =>
      obtain ⟨hnext, hstore⟩ := probeRound_ends hend
      rw [hnext, hstore]
      rfl
    | false =>
      rw [probeRound_next hend, if_neg Bool.false_ne_true]
      exact ih _ _

theorem probeTags_eq (mb : Block) : ∀ n tag,
    probeTags mb n tag = positions (nextTag mb) (probeEnds mb) n tag := by
  intro n
  induction n with
  | zero => exact fun _ => rfl
  | succ n ih =>
    intro tag
    rw [probeTags, positions]
    cases hend : probeEnds mb tag with
    | true =>
      rw [(probeRound_ends hend).1]
      rfl
    | false =>
      rw [probeRound_next hend, if_neg Bool.false_ne_true]
      exact congrArg (tag :: ·) (ih _)

/-! ## Whether the loop ends -/

/-- The tag loop of `video_probe_multiboot` comes to this offset, in any number of rounds. -/
abbrev ProbeReached (mb : Block) (tag : ℕ) : Prop := Reaches (nextTag mb) (probeEnds mb) 8 tag

/-- **`video_probe_multiboot` returns** unless its loop comes to a tag that it does not refuse
and whose size wraps when it is padded. -/
theorem videoProbeMultiboot_returns_iff (multibootInfoAddr : UInt32) (mb : Block) :
    (∃ fuel gFb, videoProbeMultiboot multibootInfoAddr mb fuel = some gFb) ↔
      multibootInfoAddr = 0 ∨ mbTotalSize mb < 16 ∨
        ∀ tag, ProbeReached mb tag → probeEnds mb tag = false → tagSize mb tag < 2 ^ 32 - 7 := by
  by_cases haddr : multibootInfoAddr = 0
  · exact iff_of_true ⟨0, .zero, if_pos haddr⟩ (Or.inl haddr)
  by_cases htotal : mbTotalSize mb < 16
  · have hzero : videoProbeMultiboot multibootInfoAddr mb 0 = some .zero := by
      rw [videoProbeMultiboot, if_neg haddr, if_pos htotal]
    exact iff_of_true ⟨0, .zero, hzero⟩ (Or.inr (Or.inl htotal))
  simp only [videoProbeMultiboot, haddr, htotal, if_false, false_or, probeLoop_eq_walk]
  constructor
  · rintro ⟨fuel, gFb, h⟩ tag hreach hend
    by_contra hwraps
    have hself : nextTag mb tag = tag := nextTag_eq_self fun hsize => hwraps hsize.2
    rw [walk_stuck hreach hend (Or.inl hself)] at h
    cases h
  · intro h
    refine ⟨mbTotalSize mb, walk_returns (mbTotalSize mb) (fun tag hle => ?_) (by omega)
      (fun tag hreach hend => ?_) fun _ _ _ _ => ⟨_, rfl⟩⟩
    · exact probeEnds_iff.mpr (Or.inl hle)
    · have hrefused := mt probeEnds_iff.mpr (Bool.not_eq_true _ ▸ hend)
      have hpos : 0 < tagSize mb tag := by
        simp only [not_or, sizeofTag] at hrefused
        omega
      exact lt_nextTag_iff.mpr ⟨hpos, h tag hreach hend⟩

/-- An area with one tag of type 1 and size 2^32 - 1. -/
def hugeTagBlock : Block := fun offset =>
  [32, 0, 0, 0, 0, 0, 0, 0, 1, 0, 0, 0, 0xFF, 0xFF, 0xFF, 0xFF].getD offset 0

/-- The loop stays at it. -/
theorem hugeTagBlock_hangs :
    ¬∃ fuel gFb, videoProbeMultiboot 0x10000 hugeTagBlock fuel = some gFb := by
  rintro ⟨fuel, gFb, h⟩
  have hself : nextTag hugeTagBlock 8 = 8 := by decide
  have hstays : probeEnds hugeTagBlock 8 = false := by decide
  rw [videoProbeMultiboot, if_neg (by decide), if_neg (by decide), probeLoop_eq_walk,
    walk_stuck .start hstays (Or.inl hself)] at h
  cases h

/-! ## Well-formed areas -/

/-- The framebuffer that a tag describes. -/
def Tag.framebufferTag : Tag → Option FramebufferTag
  | .framebuffer _ fb => some fb
  | _ => none

/-- The framebuffer of the last tag that describes one. Each such tag overwrites what the ones
before it have said. -/
def lastFramebuffer (tags : List Tag) : Option FramebufferTag :=
  (tags.filterMap Tag.framebufferTag).getLast?

/-- `g_fb` has the values of the tag: the words of the code hold the numbers of the tag without a
loss. -/
structure VideoInfo.Describes (gFb : VideoInfo) (fb : FramebufferTag) : Prop where
  /-- `phys_addr` -/
  physAddr : gFb.physAddr.toNat = fb.framebufferAddr
  /-- `width` -/
  width : gFb.width.toNat = fb.framebufferWidth
  /-- `height` -/
  height : gFb.height.toNat = fb.framebufferHeight
  /-- `pitch` -/
  pitch : gFb.pitch.toNat = fb.framebufferPitch
  /-- `bpp` -/
  bpp : gFb.bpp.toNat = fb.framebufferBpp
  /-- `type` -/
  type : gFb.type.toNat = fb.framebufferType
  /-- `size_bytes`, which does not wrap -/
  sizeBytes : gFb.sizeBytes.toNat = fb.framebufferPitch * fb.framebufferHeight

/-- `g_fb` is present if there is such a tag, and then has its values. -/
def VideoInfo.Keeps (gFb : VideoInfo) (last : Option FramebufferTag) : Prop :=
  (gFb.present = true ↔ last.isSome = true) ∧ ∀ fb, last = some fb → gFb.Describes fb

theorem toNat_readU32 (mb : Block) (offset : ℕ) :
    (UInt32.ofNat (readU32 mb offset)).toNat = readU32 mb offset :=
  UInt32.toNat_ofNat_of_lt' (readLe_lt mb 4 offset)

theorem toNat_readU64 (mb : Block) (offset : ℕ) :
    (UInt64.ofNat (readU64 mb offset)).toNat = readU64 mb offset :=
  UInt64.toNat_ofNat_of_lt' (readLe_lt mb 8 offset)

/-- The product is computed in 64 bits. -/
theorem toNat_mul_toUInt64 (a b : UInt32) :
    (a.toUInt64 * b.toUInt64).toNat = a.toNat * b.toNat := by
  have hlt : a.toNat * b.toNat < 2 ^ 64 :=
    lt_of_lt_of_eq (Nat.mul_lt_mul'' a.toNat_lt b.toNat_lt) (by decide)
  rw [UInt64.toNat_mul, UInt32.toNat_toUInt64, UInt32.toNat_toUInt64, Nat.mod_eq_of_lt hlt]

/-- The fields are taken from the tag. -/
theorem storeFramebuffer_describes {size : ℕ} {fb : FramebufferTag}
    (h : (Tag.framebuffer size fb).At mb tag) (gFb : VideoInfo) :
    (storeFramebuffer mb tag gFb).Describes fb := by
  obtain ⟨-, -, -, rfl⟩ := h
  refine ⟨toNat_readU64 mb _, toNat_readU32 mb _, toNat_readU32 mb _, toNat_readU32 mb _, rfl,
    rfl, ?_⟩
  change (UInt32.toUInt64 _ * UInt32.toUInt64 _).toNat = _
  rw [toNat_mul_toUInt64, toNat_readU32, toNat_readU32]

/-- The loop does not leave at a stored tag. -/
theorem probeEnds_of_at {t : Tag} (h : t.At mb tag) (hle : tag + 8 ≤ mbTotalSize mb) :
    probeEnds mb tag = false := by
  rw [← Bool.not_eq_true, probeEnds_iff]
  have hsize := h.size_eq
  have hmin := h.size_ge
  rintro (hout | hend | hsmall | ⟨htype, hsmall⟩)
  · omega
  · exact h.not_end hend
  · simp only [sizeofTag] at hsmall
    omega
  · cases t with
    | mmap entrySize entries => exact absurd (h.1.symm.trans htype) (by decide)
    | framebuffer size fb => exact absurd hsmall (by rw [h.2.1]; exact Nat.not_lt.mpr h.2.2.1)
    | other type size => exact h.2.2.2.2.2 (h.1.symm.trans htype)

/-- What the round of a stored tag leaves. -/
theorem probeRound_keeps {t : Tag} (h : t.At mb tag) (hle : tag + 8 ≤ mbTotalSize mb)
    {gFb : VideoInfo} {last : Option FramebufferTag} (hg : gFb.Keeps last) :
    ((probeRound mb tag).store gFb).Keeps (t.framebufferTag.or last) := by
  have hgo := mt probeEnds_iff.mpr (Bool.not_eq_true _ ▸ probeEnds_of_at h hle)
  simp only [not_or, not_and, Nat.not_le, Nat.not_lt] at hgo
  obtain ⟨hin, hend, hsize, hfb⟩ := hgo
  rw [probeRound, if_neg (Nat.not_le.mpr hin), if_neg hend, if_neg (Nat.not_lt.mpr hsize)]
  cases t with
  | mmap entrySize entries =>
    rw [if_neg (by rw [h.1]; decide)]
    exact hg
  | framebuffer size fb =>
    rw [if_pos h.1, if_neg (Nat.not_lt.mpr (hfb h.1))]
    have hdescribes := storeFramebuffer_describes h gFb
    split
    · refine ⟨iff_of_true rfl rfl, ?_⟩
      rintro fb' ⟨⟩
      exact ⟨hdescribes.physAddr, hdescribes.width, hdescribes.height, hdescribes.pitch,
        hdescribes.bpp, hdescribes.type, hdescribes.sizeBytes⟩
    · refine ⟨iff_of_true rfl rfl, ?_⟩
      rintro fb' ⟨⟩
      exact hdescribes
  | other type size =>
    rw [if_neg (by rw [h.1]; exact h.2.2.2.2.2)]
    exact hg

/-- And those of all of them. -/
theorem probeRounds_keep {tags : List Tag} : ∀ {tag : ℕ} {gFb : VideoInfo}
    {last : Option FramebufferTag}, TagsAt mb tag tags → gFb.Keeps last →
      ((tagOffsets tag tags).foldl (fun gFb tag => (probeRound mb tag).store gFb) gFb).Keeps
        ((lastFramebuffer tags).or last) := by
  induction tags with
  | nil => exact fun _ hg => hg
  | cons t ts ih =>
    intro tag gFb last h hg
    have hrest := ih h.2 (probeRound_keeps h.1 (TagsAt.le h) hg)
    have hlast : (lastFramebuffer (t :: ts)).or last =
        (lastFramebuffer ts).or (t.framebufferTag.or last) := by
      rw [lastFramebuffer, List.filterMap_cons]
      cases hfb : t.framebufferTag with
      | none => rfl
      | some fb =>
        dsimp only
        rw [List.getLast?_cons, lastFramebuffer]
        cases (ts.filterMap Tag.framebufferTag).getLast? <;> rfl
    rw [hlast]
    exact hrest

theorem lastFramebuffer_isSome_iff (tags : List Tag) :
    (lastFramebuffer tags).isSome = true ↔ ∃ size fb, Tag.framebuffer size fb ∈ tags := by
  rw [lastFramebuffer, List.getLast?_isSome, ← not_iff_not, not_not, List.filterMap_eq_nil_iff]
  constructor
  · rintro hnone ⟨size, fb, hmem⟩
    cases hnone _ hmem
  · intro hno t hmem
    cases t with
    | framebuffer size fb => exact absurd ⟨size, fb, hmem⟩ hno
    | mmap entrySize entries => rfl
    | other type size => rfl

/-- **The walks decode what is encoded**: both come to the stored tags in order and then to the
END tag, `g_fb` describes the last framebuffer, and both passes of `pmm_init` handle the
entries of all memory maps in order. -/
theorem tagWalks_decode (mb : Block) (tags : List Tag) (h : WellFormed mb tags) (fuel : ℕ)
    (hfuel : mbTotalSize mb ≤ fuel) :
    (∃ endTag, tagType mb endTag = multibootTagTypeEnd ∧ endTag + 8 ≤ mbTotalSize mb ∧
      probeTags mb fuel 8 = tagOffsets 8 tags ++ [endTag] ∧
      positions (nextTag mb) (tagsEnd mb) fuel 8 = tagOffsets 8 tags ++ [endTag]) ∧
    (∀ multibootInfoAddr ≠ 0, ∃ gFb,
      videoProbeMultiboot multibootInfoAddr mb fuel = some gFb ∧
        (gFb.present = true ↔ ∃ size fb, Tag.framebuffer size fb ∈ tags) ∧
        ∀ fb, lastFramebuffer tags = some fb → gFb.Describes fb) ∧
    (∀ {σ : Type} (body : σ → MmapEntry → σ) (s : σ),
      walkEntries mb fuel body s = some ((mmapEntries tags).foldl body s)) ∧
    ∀ image, pmmInit image mb fuel = some (pmmReserve image
      ((mmapEntries tags).foldl markAvailable (pmmReset
        ((mmapEntries tags).foldl highestAvailableEnd (16 * 1024 * 1024))))) := by
  have hvisits : Visits (nextTag mb) (probeEnds mb) 8 (tagOffsets 8 tags) :=
    tagWalk_visits (fun _ _ => probeEnds_of_at)
      (fun _ htype => probeEnds_iff.mpr (Or.inr (Or.inl htype))) h
  have hlength : (tagOffsets 8 tags).length < fuel := by
    have hlt := h.length_lt
    rw [length_tagOffsets]
    omega
  refine ⟨?_, fun multibootInfoAddr haddr => ?_, walkEntries_eq h hfuel, fun image => ?_⟩
  · obtain ⟨htype, hle⟩ := h.atEnd
    refine ⟨(nextTag mb)^[tags.length] 8, htype, hle, ?_, ?_⟩
    · rw [probeTags_eq, positions_eq hvisits hlength, length_tagOffsets]
    · rw [positions_eq (pmmWalk_visits h) hlength, length_tagOffsets]
  · have htotal : ¬mbTotalSize mb < 16 := Nat.not_lt.mpr (TagsAt.le h)
    have hzero : VideoInfo.zero.Keeps none := ⟨by decide, by simp⟩
    have hkeeps := probeRounds_keep h hzero
    rw [Option.or_none] at hkeeps
    refine ⟨_, ?_, hkeeps.1.trans (lastFramebuffer_isSome_iff tags), hkeeps.2⟩
    rw [videoProbeMultiboot, if_neg haddr, if_neg htotal, probeLoop_eq_walk, walk_eq hvisits hlength,
      foldlM_some]
  · rw [pmmInit, walkEntries_eq h hfuel]
    dsimp only
    rw [walkEntries_eq h hfuel]

/-- A block with a framebuffer of 640 by 480 pixels and one AVAILABLE entry. -/
def screenBlock : Block := fun offset =>
  [88, 0, 0, 0, 0, 0, 0, 0,
    8, 0, 0, 0, 32, 0, 0, 0, 0, 0, 0, 0xFD, 0, 0, 0, 0, 0, 0x0A, 0, 0, 0x80, 2, 0, 0, 0xE0, 1, 0, 0,
    32, 1, 0, 0,
    6, 0, 0, 0, 40, 0, 0, 0, 24, 0, 0, 0, 0, 0, 0, 0,
    0, 0, 0x20, 0, 0, 0, 0, 0, 0, 0x18, 0, 0, 0, 0, 0, 0, 1, 0, 0, 0, 0, 0, 0, 0,
    0, 0, 0, 0, 8, 0, 0, 0].getD offset 0

/-- Its framebuffer. -/
def screenTag : FramebufferTag := ⟨0xFD000000, 2560, 640, 480, 32, 1⟩

/-- Its tags. -/
def screenTags : List Tag := [.framebuffer 32 screenTag, .mmap 24 [⟨0x200000, 0x1800, 1⟩]]

theorem screenBlock_wellFormed : WellFormed screenBlock screenTags := by
  refine ⟨⟨by decide, by decide, by decide, by decide⟩,
    ⟨by decide, by decide, by decide, by decide, ?_⟩, by decide, by decide⟩
  rintro k hk
  obtain rfl : k = 0 := by simpa using hk
  exact (by decide : readEntry screenBlock (40 + 16 + 24 * 0) = ⟨0x200000, 0x1800, 1⟩)

/-- The framebuffer is found behind no other tag, the entry behind the framebuffer. -/
theorem tagWalks_decode_screenBlock :
    ∃ gFb, videoProbeMultiboot 0x10000 screenBlock 88 = some gFb ∧ gFb.Describes screenTag ∧
      walkEntries screenBlock 88 (fun entries entry => entries ++ [entry]) [] =
        some [⟨0x200000, 0x1800, 1⟩] := by
  obtain ⟨-, hprobe, hentries, -⟩ := tagWalks_decode screenBlock screenTags
    screenBlock_wellFormed 88 (by decide)
  obtain ⟨gFb, hgFb, -, hlast⟩ := hprobe 0x10000 (by decide)
  exact ⟨gFb, hgFb, hlast screenTag rfl, hentries _ []⟩

end WaluOs
