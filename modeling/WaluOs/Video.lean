import WaluOs.Console
import WaluOs.VmmRuns

/-!
# Mapping the framebuffer

`video_map_framebuffer` identity maps the 2 MiB pages that a framebuffer touches,
one call of `vmm_map_2m` after the other. It looks at the address and the size and
at nothing else of the description.
-/

namespace WaluOs

/-- `HUGE_PAGE_SIZE` -/
abbrev hugePageSize : UInt64 := 2 * 1024 * 1024

/-- `FRAMEBUFFER_MAP_MAX_BYTES` -/
abbrev framebufferMapMaxBytes : UInt64 := 256 * 1024 * 1024

/-- `align_down_2m` -/
def alignDown2m (value : UInt64) : UInt64 := value &&& ~~~(hugePageSize - 1)

/-- `align_up_2m` -/
def alignUp2m (value : UInt64) : UInt64 := (value + hugePageSize - 1) &&& ~~~(hugePageSize - 1)

/-- The loop of `video_map_framebuffer` from `addr` on: whether every page was
mapped, or `none` if the fuel runs out. -/
def videoMapPages (pml4Table : ℕ) : ℕ → Vmm → UInt64 → UInt64 → Option (Vmm × Bool)
  | 0, _, _, _ => none
  | fuel + 1, s, addr, mapEnd =>
    if addr < mapEnd then
      match vmmMap2m pml4Table s addr.toNat addr.toNat vmmFlagWritable with
      | (s, false) => some (s, false)
      | (s, true) => videoMapPages pml4Table fuel s (addr + hugePageSize) mapEnd
    else
      some (s, true)

/-- `video_map_framebuffer`. The sums are taken in 64 bits, and the comparison of the two ends is
what notices that one of them has wrapped. Pages that were mapped before a call fails stay mapped.
-/
def videoMapFramebuffer (pml4Table fuel : ℕ) (s : Vmm) (fb : VideoFramebufferInfo) :
    Option ((Vmm × VideoFramebufferInfo) × Bool) :=
  if !fb.present ∨ fb.sizeBytes = 0 then
    some ((s, fb), false)
  else if framebufferMapMaxBytes < fb.sizeBytes then
    some ((s, fb), false)
  else
    let mapStart := alignDown2m fb.physAddr
    let mapEnd := alignUp2m (fb.physAddr + fb.sizeBytes)
    if mapEnd ≤ mapStart then
      some ((s, fb), false)
    else
      match videoMapPages pml4Table fuel s mapStart mapEnd with
      | none => none
      | some (s, false) => some ((s, { fb with mapped := false }), false)
      | some (s, true) => some ((s, { fb with mapped := true }), true)

/-- What is known of a framebuffer that was mapped. -/
theorem videoMapFramebuffer_true {pml4Table fuel : ℕ} {s s' : Vmm}
    {fb fb' : VideoFramebufferInfo}
    (h : videoMapFramebuffer pml4Table fuel s fb = some ((s', fb'), true)) :
    (fb.present = true ∧ fb.sizeBytes ≠ 0 ∧ fb.sizeBytes ≤ framebufferMapMaxBytes) ∧
      fb' = { fb with mapped := true } := by
  rw [videoMapFramebuffer] at h
  split at h
  · cases h
  rename_i hpresent
  split at h
  · cases h
  rename_i hsize
  dsimp only at h
  split at h
  · cases h
  split at h
  · cases h
  · cases h
  · cases h
    simp only [Bool.not_eq_true', not_or, Bool.not_eq_false] at hpresent
    exact ⟨⟨hpresent.1, hpresent.2, UInt64.not_lt.mp hsize⟩, rfl⟩

/-- A framebuffer in one page, if that page is mapped. -/
theorem videoMapFramebuffer_onePage {pml4Table fuel : ℕ} {s : Vmm} {fb : VideoFramebufferInfo}
    (page : UInt64) (hpresent : fb.present = true) (hsize : fb.sizeBytes ≠ 0)
    (hmax : fb.sizeBytes ≤ framebufferMapMaxBytes) (hstart : alignDown2m fb.physAddr = page)
    (hend : alignUp2m (fb.physAddr + fb.sizeBytes) = page + hugePageSize)
    (hlt : page < page + hugePageSize)
    (hpage : (vmmMap2m pml4Table s page.toNat page.toNat vmmFlagWritable).2 = true) :
    ∃ s', videoMapFramebuffer pml4Table (fuel + 2) s fb =
      some ((s', { fb with mapped := true }), true) := by
  rcases hmap : vmmMap2m pml4Table s page.toNat page.toNat vmmFlagWritable with ⟨s', ok⟩
  rw [hmap] at hpage
  obtain rfl : ok = true := hpage
  have hloop : videoMapPages pml4Table (fuel + 2) s page (page + hugePageSize) =
      some (s', true) := by
    rw [videoMapPages, if_pos hlt, hmap]
    dsimp only
    rw [videoMapPages, if_neg (UInt64.lt_irrefl _)]
  refine ⟨s', ?_⟩
  rw [videoMapFramebuffer, if_neg (by simp [hpresent, hsize]), if_neg (UInt64.not_lt.mpr hmax)]
  dsimp only
  rw [hstart, hend, if_neg (UInt64.not_le.mpr hlt), hloop]

end WaluOs
