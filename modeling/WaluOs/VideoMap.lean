import WaluOs.Video

/-!
# The framebuffer's pages

`video_map_framebuffer` rounds the start of the framebuffer down and its end up to 2 MiB, in
64 bits. A framebuffer has at most 256 MiB, so if its end wraps it lands far below the start,
and if only the rounding does it lands at 0: one comparison of the two ends refuses both.
Otherwise the loop maps the pages between them one after the other, and the end, being a
multiple of 2 MiB itself, is not stepped over.
-/

namespace WaluOs

/-! ## Rounding -/

/-- The mask of the two functions. -/
theorem and_pageMask {n : ℕ} (h : n < 2 ^ 64) : n &&& (2 ^ 64 - 2 ^ 21) = n / 2 ^ 21 * 2 ^ 21 := by
  have hmask : 2 ^ 64 - 2 ^ 21 = (2 ^ 43 - 1) * 2 ^ 21 := by decide
  apply Nat.eq_of_testBit_eq
  intro i
  rw [hmask, Nat.testBit_and, Nat.testBit_mul_two_pow, Nat.testBit_mul_two_pow,
    Nat.testBit_two_pow_sub_one, Nat.testBit_div_two_pow]
  by_cases hlow : 21 ≤ i
  · rw [Nat.sub_add_cancel hlow]
    by_cases hhigh : i < 64
    · simp [hlow, show i - 21 < 43 by omega]
    · have hzero : n.testBit i = false :=
        Nat.testBit_lt_two_pow (Nat.lt_of_lt_of_le h (Nat.pow_le_pow_right (by decide) (by omega)))
      simp [hzero]
  · simp [hlow]

theorem toNat_alignDown2m (value : UInt64) :
    (alignDown2m value).toNat = value.toNat / 2 ^ 21 * 2 ^ 21 := by
  have hmask : (~~~(hugePageSize - 1)).toNat = 2 ^ 64 - 2 ^ 21 := by decide
  rw [alignDown2m, UInt64.toNat_and, hmask, and_pageMask value.toNat_lt]

/-- The sum may wrap, and then the result is 0. -/
theorem toNat_alignUp2m (value : UInt64) :
    (alignUp2m value).toNat = (value.toNat + (2 ^ 21 - 1)) % 2 ^ 64 / 2 ^ 21 * 2 ^ 21 := by
  have hsum : (value + hugePageSize - 1).toNat = (value.toNat + (2 ^ 21 - 1)) % 2 ^ 64 := by
    have hpage : hugePageSize.toNat = 2 ^ 21 := rfl
    have hone : (1 : UInt64).toNat = 1 := rfl
    rw [UInt64.toNat_sub, UInt64.toNat_add, hpage, hone]
    omega
  have hdown := toNat_alignDown2m (value + hugePageSize - 1)
  rwa [hsum] at hdown

/-! ## The loop -/

variable {pml4Table : ℕ}

/-- The next address, which is at most the end. -/
theorem toNat_nextPage {addr mapEnd : UInt64} (haddr : addr.toNat % 2 ^ 21 = 0)
    (hend : mapEnd.toNat % 2 ^ 21 = 0) (hlt : addr < mapEnd) :
    (addr + hugePageSize).toNat = addr.toNat + 2 ^ 21 ∧ addr.toNat + 2 ^ 21 ≤ mapEnd.toNat := by
  have hpage : hugePageSize.toNat = 2 ^ 21 := rfl
  have hmax := mapEnd.toNat_lt
  rw [UInt64.lt_iff_toNat_lt] at hlt
  rw [UInt64.toNat_add, hpage]
  omega

/-- The loop ends, whatever the calls return. -/
theorem videoMapPages_returns {mapEnd : UInt64} (hend : mapEnd.toNat % 2 ^ 21 = 0) :
    ∀ {fuel : ℕ} {s : Vmm} {addr : UInt64}, addr.toNat % 2 ^ 21 = 0 →
      mapEnd.toNat - addr.toNat < fuel * 2 ^ 21 →
        ∃ r, videoMapPages pml4Table fuel s addr mapEnd = some r := by
  intro fuel
  induction fuel with
  | zero => exact fun _ h => absurd h (by omega)
  | succ fuel ih =>
    intro s addr haddr hfuel
    rw [videoMapPages]
    split
    · rename_i hlt
      obtain ⟨hnext, hle⟩ := toNat_nextPage haddr hend hlt
      rcases vmmMap2m pml4Table s addr.toNat addr.toNat vmmFlagWritable with ⟨s', ok⟩
      cases ok with
      | false => exact ⟨_, rfl⟩
      | true => exact ih (by rw [hnext]; omega) (by rw [hnext]; omega)
    · exact ⟨_, rfl⟩

/-- If every call succeeds, the loop has mapped its range to itself and nothing below it. -/
theorem videoMapPages_spec {mapEnd : UInt64} (hend : mapEnd.toNat % 2 ^ 21 = 0)
    (hlow : mapEnd.toNat ≤ 2 ^ 47) :
    ∀ {fuel : ℕ} {s s' : Vmm} {addr : UInt64}, VmmOk pml4Table s → addr.toNat % 2 ^ 21 = 0 →
      videoMapPages pml4Table fuel s addr mapEnd = some (s', true) →
        (∀ a, addr.toNat ≤ a → a < mapEnd.toNat →
          translate s'.mem pml4Table a = some ⟨a, true, false, false⟩) ∧
        ∀ a < addr.toNat, translate s'.mem pml4Table a = translate s.mem pml4Table a := by
  intro fuel
  induction fuel with
  | zero =>
    intro s s' addr _ _ h
    cases h
  | succ fuel ih =>
    intro s s' addr hok haddr h
    rw [videoMapPages] at h
    split at h
    · rename_i hlt
      obtain ⟨hnext, hle⟩ := toNat_nextPage haddr hend hlt
      have hcanon : Canonical addr.toNat := Or.inl (by omega)
      have hspec := vmmMap2m_spec hok hcanon addr.toNat vmmFlagWritable
      have hok' := hok.map addr.toNat addr.toNat vmmFlagWritable
      rcases hmap : vmmMap2m pml4Table s addr.toNat addr.toNat vmmFlagWritable with ⟨t, ok⟩
      rw [hmap] at h hspec hok'
      cases ok with
      | false => cases h
      | true =>
        obtain ⟨hrange, hbelow⟩ := ih hok' (by rw [hnext]; omega) h
        rw [hnext] at hrange hbelow
        refine ⟨fun a hfirst hlast => ?_, fun a ha => ?_⟩
        · by_cases hpage : a < addr.toNat + 2 ^ 21
          · -- the page of this round
            rw [hbelow a hpage, hspec.mapped (by omega) rfl a ⟨hfirst, hpage⟩,
              Nat.add_sub_cancel' hfirst]
            rfl
          · exact hrange a (Nat.not_lt.mp hpage) hlast
        · rw [hbelow a (by omega), hspec.others rfl a fun hin => Nat.not_lt.mpr hin.1 ha]
    · rename_i hge
      obtain ⟨rfl, -⟩ := Prod.mk.inj (Option.some.inj h)
      rw [UInt64.lt_iff_toNat_lt] at hge
      exact ⟨fun a hfirst hlast => absurd (Nat.lt_of_le_of_lt hfirst hlast) hge, fun _ _ => rfl⟩

/-! ## The two ends -/

/-- The end of the framebuffer, or the end of its last page, lies beyond the address space. Such a
description cannot be mapped, and has to be refused. -/
def VideoFramebufferInfo.Wraps (fb : VideoFramebufferInfo) : Prop :=
  2 ^ 64 ≤ fb.physAddr.toNat + fb.sizeBytes.toNat ∨
    2 ^ 64 ≤ (fb.physAddr.toNat + fb.sizeBytes.toNat + (2 ^ 21 - 1)) / 2 ^ 21 * 2 ^ 21

/-- The end of a framebuffer that does not wrap. -/
theorem VideoFramebufferInfo.toNat_mapEnd {fb : VideoFramebufferInfo} (h : ¬fb.Wraps) :
    (alignUp2m (fb.physAddr + fb.sizeBytes)).toNat =
      (fb.physAddr.toNat + fb.sizeBytes.toNat + (2 ^ 21 - 1)) / 2 ^ 21 * 2 ^ 21 := by
  rw [Wraps] at h
  rw [toNat_alignUp2m, UInt64.toNat_add]
  omega

/-- Past the tests it is the loop over the pages that the framebuffer touches. -/
theorem videoMapFramebuffer_cases (fb : VideoFramebufferInfo) (fuel : ℕ) (s : Vmm) :
    videoMapFramebuffer pml4Table fuel s fb = some ((s, fb), false) ∨
      fb.sizeBytes.toNat ≤ 2 ^ 28 ∧
        alignDown2m fb.physAddr < alignUp2m (fb.physAddr + fb.sizeBytes) ∧
        videoMapFramebuffer pml4Table fuel s fb =
          (videoMapPages pml4Table fuel s (alignDown2m fb.physAddr)
            (alignUp2m (fb.physAddr + fb.sizeBytes))).map
              fun r => ((r.1, { fb with mapped := r.2 }), r.2) := by
  rw [videoMapFramebuffer]
  split
  · exact Or.inl rfl
  split
  · exact Or.inl rfl
  rename_i hsize
  dsimp only
  split
  · exact Or.inl rfl
  rename_i hrange
  refine Or.inr ⟨UInt64.le_iff_toNat_le.mp (UInt64.not_lt.mp hsize), UInt64.not_le.mp hrange, ?_⟩
  rcases videoMapPages pml4Table fuel s (alignDown2m fb.physAddr)
    (alignUp2m (fb.physAddr + fb.sizeBytes)) with _ | ⟨t, _ | _⟩ <;> rfl

/-- A framebuffer that wraps is refused before the loop. -/
theorem videoMapFramebuffer_wraps {fb : VideoFramebufferInfo} (h : fb.Wraps) (fuel : ℕ) (s : Vmm) :
    videoMapFramebuffer pml4Table fuel s fb = some ((s, fb), false) := by
  rcases videoMapFramebuffer_cases fb fuel s with hrefused | ⟨hmax, hrange, -⟩
  · exact hrefused
  · have hphys := fb.physAddr.toNat_lt
    rw [UInt64.lt_iff_toNat_lt, toNat_alignDown2m, toNat_alignUp2m, UInt64.toNat_add] at hrange
    rw [VideoFramebufferInfo.Wraps] at h
    omega

/-- At most 129 pages are mapped. -/
theorem videoMapFramebuffer_returns (fb : VideoFramebufferInfo) (s : Vmm) :
    ∃ r, videoMapFramebuffer pml4Table 130 s fb = some r := by
  by_cases hwraps : fb.Wraps
  · exact ⟨_, videoMapFramebuffer_wraps hwraps 130 s⟩
  rcases videoMapFramebuffer_cases fb 130 s with hrefused | ⟨hmax, -, hpages⟩
  · exact ⟨_, hrefused⟩
  · have hstart := toNat_alignDown2m fb.physAddr
    have hend := fb.toNat_mapEnd hwraps
    obtain ⟨r, hloop⟩ : ∃ r, videoMapPages pml4Table 130 s (alignDown2m fb.physAddr)
        (alignUp2m (fb.physAddr + fb.sizeBytes)) = some r :=
      videoMapPages_returns (by omega) (by omega) (by omega)
    rw [hpages, hloop]
    exact ⟨_, rfl⟩

/-- A framebuffer in the lower half of the address space that was mapped. -/
theorem videoMapFramebuffer_mapped {fb fb' : VideoFramebufferInfo} {fuel : ℕ} {s s' : Vmm}
    (hok : VmmOk pml4Table s)
    (h : videoMapFramebuffer pml4Table fuel s fb = some ((s', fb'), true))
    (hlow : fb.physAddr.toNat + fb.sizeBytes.toNat ≤ 2 ^ 47) :
    fb'.mapped = true ∧ ∀ a, fb.physAddr.toNat ≤ a →
      a < fb.physAddr.toNat + fb.sizeBytes.toNat →
        translate s'.mem pml4Table a = some ⟨a, true, false, false⟩ := by
  have hwraps : ¬fb.Wraps := by
    rw [VideoFramebufferInfo.Wraps]
    omega
  have hstart := toNat_alignDown2m fb.physAddr
  have hend := fb.toNat_mapEnd hwraps
  rcases videoMapFramebuffer_cases fb fuel s with hrefused | ⟨-, -, hpages⟩
  · rw [hrefused] at h
    cases h
  · rw [hpages] at h
    obtain ⟨⟨t, ok⟩, hloop, hresult⟩ := Option.map_eq_some_iff.mp h
    cases hresult
    obtain ⟨hrange, -⟩ := videoMapPages_spec (by omega) (by omega) hok (by omega) hloop
    exact ⟨rfl, fun a hfirst hlast => hrange a (by omega) (by omega)⟩

/-- **The framebuffer is mapped to itself or refused**: the loop always ends; after a success
every byte below 2^47 is writable at its own address; and if the end wraps, the loop is not
entered, so that no fuel is needed. -/
theorem videoMapFramebuffer_spec (fb : VideoFramebufferInfo) :
    (∀ pml4Table s, ∃ r, videoMapFramebuffer pml4Table 130 s fb = some r) ∧
    (∀ image (l : BootLayout image) s, VmmReachable image l s → ∀ fuel s' fb',
      videoMapFramebuffer l.pml4Table fuel s fb = some ((s', fb'), true) →
        fb.physAddr.toNat + fb.sizeBytes.toNat ≤ 2 ^ 47 →
          fb'.mapped = true ∧ ∀ a, fb.physAddr.toNat ≤ a →
            a < fb.physAddr.toNat + fb.sizeBytes.toNat →
              translate s'.mem l.pml4Table a = some ⟨a, true, false, false⟩) ∧
    (fb.Wraps → ∀ pml4Table fuel s,
      videoMapFramebuffer pml4Table fuel s fb = some ((s, fb), false)) :=
  ⟨fun _ s => videoMapFramebuffer_returns fb s,
    fun _ _ _ h _ _ _ => videoMapFramebuffer_mapped h.ok,
    fun hwraps _ fuel s => videoMapFramebuffer_wraps hwraps fuel s⟩

/-- A framebuffer of 640 by 480 pixels at 2 MiB. -/
def fbAt2M : VideoFramebufferInfo :=
  { present := true, mapped := false, physAddr := 0x200000, sizeBytes := 1228800,
    width := 640, height := 480, pitch := 2560, bpp := 32, type := 1 }

/-- Its page is mapped through the boot tables. -/
theorem videoMapFramebuffer_bootMem (p : Pmm) :
    ∃ s', videoMapFramebuffer layoutAt1M.pml4Table 130 ⟨bootMem, p⟩ fbAt2M =
      some ((s', { fbAt2M with mapped := true }), true) :=
  videoMapFramebuffer_onePage 0x200000 rfl (by decide) (by decide) (by decide) (by decide) (by decide)
    (vmmMap2m_bootMem p _ _ (by decide) (by decide) (by decide) _)

/-- A byte in the middle of it. -/
theorem videoMapFramebuffer_spec_bootMem : ∃ s s', VmmReachable kernelAt1M layoutAt1M s ∧
    videoMapFramebuffer layoutAt1M.pml4Table 130 s fbAt2M =
      some ((s', { fbAt2M with mapped := true }), true) ∧
    translate s'.mem layoutAt1M.pml4Table 0x212345 = some ⟨0x212345, true, false, false⟩ := by
  obtain ⟨p, hp⟩ := exists_reachable_bootMem
  obtain ⟨s', hs'⟩ := videoMapFramebuffer_bootMem p
  obtain ⟨-, hmapped, -⟩ := videoMapFramebuffer_spec fbAt2M
  obtain ⟨-, hrange⟩ := hmapped _ _ _ hp 130 s' _ hs' (by decide)
  exact ⟨_, s', hp, hs', hrange 0x212345 (by decide) (by decide)⟩

end WaluOs
