import WaluOs.Probe

/-!
# What the probe reads

The tag loop of `video_probe_multiboot` makes sure that a tag begins inside the information
area and that it is large enough for its kind, by its own account. Whether it ends inside the
area is not looked at, so the loop reads beyond the area exactly where a tag that it comes to
does not end inside (`TagsFit`). In a well-formed area every tag does.
-/

namespace WaluOs

open Loops

/-- The reads of `video_probe_multiboot`, of at most `n` rounds of its loop, each as an offset and
a number of bytes. Statements for all `n` are about the whole call, also if it never ends. -/
def videoProbeReads (multibootInfoAddr : UInt32) (mb : Block) (n : ℕ) : List (ℕ × ℕ) :=
  if multibootInfoAddr = 0 then []
  else (0, 4) :: if mbTotalSize mb < 16 then [] else probeReads mb n 8

/-- The tags that the loop comes to lie in the area, as far as it reads them. The loop compares
the beginning of a tag with the end of the area, and never the end of a tag. -/
structure TagsFit (mb : Block) : Prop where
  /-- if the loop comes to the last bytes, fewer than eight, they are the type of an END tag -/
  tail : ProbeReached mb (mbTotalSize mb / 8 * 8) → mbTotalSize mb % 8 = 0 ∨
    4 ≤ mbTotalSize mb % 8 ∧ tagType mb (mbTotalSize mb / 8 * 8) = multibootTagTypeEnd
  /-- a framebuffer that is stored lies in the area up to its type, or else its colours -/
  framebuffer : ∀ tag, ProbeReached mb tag → probeEnds mb tag = false →
    tagType mb tag = multibootTagTypeFramebuffer →
      tag + 30 ≤ mbTotalSize mb ∧ (HasColors mb tag → tag + 38 ≤ mbTotalSize mb)

variable {mb : Block} {tag : ℕ}

/-- The reads of one round. -/
theorem mem_reads_iff {read : ℕ × ℕ} : read ∈ (probeRound mb tag).reads ↔
    tag < mbTotalSize mb ∧ (read = (tag, 4) ∨ tagType mb tag ≠ multibootTagTypeEnd ∧
      (read = (tag + 4, 4) ∨ (probeEnds mb tag = false ∧
        tagType mb tag = multibootTagTypeFramebuffer) ∧
          (read ∈ framebufferReads tag ∨ HasColors mb tag ∧ read ∈ colorReads tag))) := by
  rw [← Nat.not_le, probeEnds, probeRound]
  split_ifs with hout hend hsmall htype hcommon hcolors
  · simp [hout]
  · simp [hout, hend]
  · simp [headerReads, hout, hend]
  · simp [headerReads, hout, hend]
  · rw [and_iff_right hcolors]
    simp [headerReads, hout, htype]
  · rw [eq_false hcolors]
    simp [headerReads, hout, htype]
  · simp [headerReads, hout, hend, htype]

/-- The reads of all rounds. -/
theorem mem_probeReads_iff {read : ℕ × ℕ} : (∃ n, read ∈ probeReads mb n 8) ↔
    ∃ tag, ProbeReached mb tag ∧ read ∈ (probeRound mb tag).reads := by
  simp only [probeReads, List.mem_flatMap, probeTags_eq, ProbeReached, ← mem_positions_iff]
  constructor
  · rintro ⟨n, tag, hreach, hread⟩
    exact ⟨tag, ⟨n, hreach⟩, hread⟩
  · rintro ⟨tag, ⟨n, hreach⟩, hread⟩
    exact ⟨n, tag, hreach, hread⟩

/-- Tags begin at multiples of eight. -/
theorem ProbeReached.aligned (h : ProbeReached mb tag) : 8 ∣ tag := by
  induction h with
  | start => exact Nat.dvd_refl 8
  | next _ _ ih => exact Nat.dvd_add ih (Nat.dvd_mul_left 8 _)

/-- The header of a tag lies in the area, as far as it is read. -/
theorem TagsFit.header (h : TagsFit mb) (hreach : ProbeReached mb tag)
    (hlt : tag < mbTotalSize mb) : tag + 4 ≤ mbTotalSize mb ∧
      (tagType mb tag ≠ multibootTagTypeEnd → tag + 8 ≤ mbTotalSize mb) := by
  have haligned := hreach.aligned
  by_cases hroom : tag + 8 ≤ mbTotalSize mb
  · exact ⟨by omega, fun _ => hroom⟩
  · have htag : tag = mbTotalSize mb / 8 * 8 := by omega
    rcases h.tail (htag ▸ hreach) with hwhole | ⟨hfour, htype⟩
    · omega
    · exact ⟨by omega, fun hne => absurd (htag ▸ htype) hne⟩

theorem framebufferReads_le (tag : ℕ) :
    ∀ read ∈ framebufferReads tag, read.1 + read.2 ≤ tag + 30 := by
  simp [framebufferReads]

theorem colorReads_le (tag : ℕ) : ∀ read ∈ colorReads tag, read.1 + read.2 ≤ tag + 38 := by
  simp [colorReads]

/-- All reads of the probe are inside the area if those of every round are. -/
theorem videoProbeReads_inside_iff_rounds {multibootInfoAddr : UInt32}
    (haddr : multibootInfoAddr ≠ 0) (htotal : 16 ≤ mbTotalSize mb) :
    (∀ n, ∀ read ∈ videoProbeReads multibootInfoAddr mb n,
      read.1 + read.2 ≤ mbTotalSize mb) ↔ ∀ tag, ProbeReached mb tag →
        ∀ read ∈ (probeRound mb tag).reads, read.1 + read.2 ≤ mbTotalSize mb := by
  simp only [videoProbeReads, if_neg haddr, if_neg (Nat.not_lt.mpr htotal)]
  constructor
  · intro h tag hreach read hread
    obtain ⟨n, hn⟩ := mem_probeReads_iff.mpr ⟨tag, hreach, hread⟩
    exact h n read (List.mem_cons_of_mem _ hn)
  · intro h n read hn
    rcases List.mem_cons.mp hn with rfl | hn
    · dsimp only
      omega
    · obtain ⟨tag, hreach, hread⟩ := mem_probeReads_iff.mp ⟨n, hn⟩
      exact h tag hreach read hread

/-- If the reads of every round are inside, the tags fit. -/
theorem TagsFit.of_inside (h : ∀ tag, ProbeReached mb tag →
    ∀ read ∈ (probeRound mb tag).reads, read.1 + read.2 ≤ mbTotalSize mb) : TagsFit mb := by
  refine ⟨fun hreach => ?_, fun tag hreach hgo htype => ?_⟩
  · by_cases hwhole : mbTotalSize mb % 8 = 0
    · exact Or.inl hwhole
    · have hlt : mbTotalSize mb / 8 * 8 < mbTotalSize mb := by omega
      have hfour := h _ hreach _ (mem_reads_iff.mpr ⟨hlt, Or.inl rfl⟩)
      refine Or.inr ⟨by dsimp only at hfour; omega, ?_⟩
      by_contra hne
      have height := h _ hreach _ (mem_reads_iff.mpr ⟨hlt, Or.inr ⟨hne, Or.inl rfl⟩⟩)
      dsimp only at height
      omega
  · have hstays := mt probeEnds_iff.mpr (Bool.not_eq_true _ ▸ hgo)
    simp only [not_or, Nat.not_le] at hstays
    have hfb : ∀ read, read ∈ framebufferReads tag ∨ HasColors mb tag ∧ read ∈ colorReads tag →
        read.1 + read.2 ≤ mbTotalSize mb := fun read hread => h tag hreach read
      (mem_reads_iff.mpr ⟨hstays.1, Or.inr ⟨hstays.2.1, Or.inr ⟨⟨hgo, htype⟩, hread⟩⟩⟩)
    refine ⟨hfb (tag + 29, 1) (Or.inl ?_), fun hcolors => hfb (tag + 37, 1)
      (Or.inr ⟨hcolors, ?_⟩)⟩
    · simp [framebufferReads]
    · simp [colorReads]

/-- If the tags fit, so do the reads of a round. -/
theorem TagsFit.inside (h : TagsFit mb) (hreach : ProbeReached mb tag) :
    ∀ read ∈ (probeRound mb tag).reads, read.1 + read.2 ≤ mbTotalSize mb := by
  intro read hread
  obtain ⟨hlt, hread⟩ := mem_reads_iff.mp hread
  obtain ⟨hfour, height⟩ := h.header hreach hlt
  rcases hread with rfl | ⟨hne, rfl | ⟨⟨hgo, htype⟩, hread⟩⟩
  · exact hfour
  · exact height hne
  · obtain ⟨hcommon, hrgb⟩ := h.framebuffer tag hreach hgo htype
    rcases hread with hread | ⟨hcolors, hread⟩
    · exact (framebufferReads_le tag read hread).trans hcommon
    · exact (colorReads_le tag read hread).trans (hrgb hcolors)

/-- **All reads are inside the area** exactly when the tags fit. The loop makes sure that a tag
begins inside, and takes its word for where it ends. -/
theorem videoProbeReads_inside_iff (multibootInfoAddr : UInt32) (mb : Block)
    (haddr : multibootInfoAddr ≠ 0) (htotal : 16 ≤ mbTotalSize mb) :
    (∀ n, ∀ read ∈ videoProbeReads multibootInfoAddr mb n,
      read.1 + read.2 ≤ mbTotalSize mb) ↔ TagsFit mb :=
  (videoProbeReads_inside_iff_rounds haddr htotal).trans
    ⟨TagsFit.of_inside, fun h _ hreach => h.inside hreach⟩

/-! ## Well-formed areas -/

/-- The loop comes to no other tags than those that are stored. -/
theorem WellFormed.reached {tags : List Tag} (h : WellFormed mb tags)
    (hreach : ProbeReached mb tag) : ∃ ts, TagsAt mb tag ts := by
  induction hreach with
  | start => exact ⟨tags, h⟩
  | next _ hgo ih =>
    obtain ⟨ts, hts⟩ := ih
    cases ts with
    | nil =>
      rw [probeEnds_iff.mpr (Or.inr (Or.inl hts.1))] at hgo
      cases hgo
    | cons t ts =>
      rw [hts.nextTag_eq]
      exact ⟨ts, hts.2⟩

/-- And these fit. -/
theorem WellFormed.tagsFit {tags : List Tag} (h : WellFormed mb tags) : TagsFit mb := by
  refine ⟨fun hreach => ?_, fun tag hreach hgo htype => ?_⟩
  · obtain ⟨ts, hts⟩ := h.reached hreach
    have hle := TagsAt.le hts
    omega
  · obtain ⟨ts, hts⟩ := h.reached hreach
    cases ts with
    | nil => exact absurd (hts.1.symm.trans htype) (by decide)
    | cons t ts =>
      have hle := TagsAt.le hts.2
      have hsize := hts.1.size_eq
      have hstays := mt probeEnds_iff.mpr (Bool.not_eq_true _ ▸ hgo)
      simp only [not_or, not_and, Nat.not_lt] at hstays
      have hcommon := hstays.2.2.2 htype
      simp only [sizeofFramebufferCommon] at hcommon
      refine ⟨by omega, fun hcolors => ?_⟩
      have hrgb := hcolors.2
      simp only [sizeofFramebufferRgb] at hrgb
      omega

/-- The tags of this area fit, so all reads are inside. -/
theorem videoProbeReads_inside_screenBlock : TagsFit screenBlock ∧
    ∀ n, ∀ read ∈ videoProbeReads 0x10000 screenBlock n,
      read.1 + read.2 ≤ mbTotalSize screenBlock :=
  ⟨screenBlock_wellFormed.tagsFit,
    (videoProbeReads_inside_iff 0x10000 screenBlock (by decide) (by decide)).mpr
      screenBlock_wellFormed.tagsFit⟩

/-- An area of 16 bytes with a framebuffer tag of 40. -/
def cutFramebufferBlock : Block := fun offset =>
  [16, 0, 0, 0, 0, 0, 0, 0, 8, 0, 0, 0, 40, 0, 0, 0].getD offset 0

/-- The address of the framebuffer is read from behind the area. -/
theorem cutFramebufferBlock_outside : 16 ≤ mbTotalSize cutFramebufferBlock ∧
    ∃ n, ∃ read ∈ videoProbeReads 0x10000 cutFramebufferBlock n,
      mbTotalSize cutFramebufferBlock < read.1 + read.2 :=
  ⟨by decide, 1, (16, 8), by decide, by decide⟩

end WaluOs
