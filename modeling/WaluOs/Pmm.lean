import WaluOs.Bitmap
import WaluOs.Multiboot

/-!
# The frame allocator

One bit for each 4 KiB frame below 1 GiB, set when the frame is in use.
`pmm_init` starts with every bit set, clears the frames of the AVAILABLE regions
of the memory map, and sets those of the first MiB and of the kernel image
again; an allocation takes the lowest clear bit.

A region is marked from the frame of its first byte to the frame of its last
byte, whichever way it is marked: `Touches` is that rounding.
-/

namespace WaluOs

open Loops

/-- `FRAME_SIZE` -/
abbrev frameSize : ℕ := 4096

/-- `PMM_MAX_MEMORY` -/
abbrev pmmMaxMemory : ℕ := 2 ^ 30

/-- The module's static variables. The counter is kept beside the bitmap and never computed from
it, so that the two agree is a theorem. -/
structure Pmm : Type where
  /-- `frame_bitmap` -/
  frameBitmap : Bitmap
  /-- `total_frames` -/
  totalFrames : ℕ
  /-- `used_frames` -/
  usedFrames : ℕ

/-- Where the linker has put the kernel: `_kernel_start` and `_kernel_end`. The two fields behind
them are what the linker script guarantees. -/
structure KernelImage : Type where
  /-- `_kernel_start` -/
  kernelStart : ℕ
  /-- `_kernel_end` -/
  kernelEnd : ℕ
  /-- the script sets the start first -/
  start_le : kernelStart ≤ kernelEnd
  /-- both are addresses -/
  end_lt : kernelEnd < 2 ^ 64

/-! ## The code -/

/-- `bitmap_set` -/
def bitmapSet (p : Pmm) (frame : ℕ) : Pmm :=
  if frame ≥ p.totalFrames then p
  else if p.frameBitmap.test frame = false then
    { p with frameBitmap := p.frameBitmap.set frame, usedFrames := p.usedFrames + 1 }
  else p

/-- `bitmap_clear`; the counter stops at 0. -/
def bitmapClear (p : Pmm) (frame : ℕ) : Pmm :=
  if frame ≥ p.totalFrames then p
  else if p.frameBitmap.test frame = true then
    { p with frameBitmap := p.frameBitmap.clear frame, usedFrames := p.usedFrames - 1 }
  else p

/-- `bitmap_test` -/
def bitmapTest (p : Pmm) (frame : ℕ) : Bool :=
  if frame ≥ p.totalFrames then true else p.frameBitmap.test frame

/-- `mark_region`; the end is computed in 64 bits. -/
def markRegion (p : Pmm) (addr len : ℕ) (available : Bool) : Pmm :=
  if len = 0 ∨ addr ≥ pmmMaxMemory then p
  else
    let stop := (addr + len) % 2 ^ 64
    let stop := if stop > pmmMaxMemory then pmmMaxMemory else stop
    forRange (addr / frameSize) ((stop + frameSize - 1) / frameSize)
      (fun p f => if available then bitmapClear p f else bitmapSet p f) p

/-- The entry body of the first pass of `pmm_init`. The end of an entry is computed in 64 bits, so
an entry that ends beyond them counts with a small end. -/
def highestAvailableEnd (highest : ℕ) (entry : MmapEntry) : ℕ :=
  if entry.type = multibootMemoryAvailable then
    let candidateEnd := (entry.addr + entry.len) % 2 ^ 64
    if candidateEnd > highest then candidateEnd else highest
  else highest

/-- The entry body of the second pass: the frames that an available entry touches are cleared,
also those it touches in part only. -/
def markAvailable (p : Pmm) (entry : MmapEntry) : Pmm :=
  if entry.type = multibootMemoryAvailable then markRegion p entry.addr entry.len true else p

/-- `pmm_init` between its passes: `total_frames` for the highest end found, at most for 1 GiB and
at least one frame, and every frame in use. -/
def pmmReset (highest : ℕ) : Pmm :=
  let highest := if highest > pmmMaxMemory then pmmMaxMemory else highest
  let totalFrames := if highest / frameSize = 0 then 1 else highest / frameSize
  ⟨fun _ => 0xFF#8, totalFrames, totalFrames⟩

/-- `pmm_init` after its passes: the first MiB and the kernel are taken back, whatever the memory
map says of them. -/
def pmmReserve (image : KernelImage) (p : Pmm) : Pmm :=
  let p := markRegion p 0 (1024 * 1024) false
  markRegion p image.kernelStart (image.kernelEnd - image.kernelStart) false

/-- `pmm_init`, whose loops may go around `fuel` times each. There is no result if that is not
enough, which happens for every fuel when an entry has the size 0. -/
def pmmInit (image : KernelImage) (mb : Block) (fuel : ℕ) : Option Pmm :=
  match walkEntries mb fuel highestAvailableEnd (16 * 1024 * 1024) with
  | none => none
  | some highest =>
    match walkEntries mb fuel markAvailable (pmmReset highest) with
    | none => none
    | some p => some (pmmReserve image p)

/-- The loop shared by the two allocation calls. -/
def pmmAllocBelow (p : Pmm) (maxFrame : ℕ) : Pmm × ℕ :=
  match (List.range maxFrame).find? fun frame => !bitmapTest p frame with
  | some frame => (bitmapSet p frame, frame * frameSize)
  | none => (p, 0)

/-- `pmm_alloc_frame` -/
def pmmAllocFrame (p : Pmm) : Pmm × ℕ := pmmAllocBelow p p.totalFrames

/-- `pmm_alloc_frame_low` -/
def pmmAllocFrameLow (p : Pmm) (maxPhysAddr : ℕ) : Pmm × ℕ :=
  let maxFrame := maxPhysAddr / frameSize
  pmmAllocBelow p (if maxFrame > p.totalFrames then p.totalFrames else maxFrame)

/-- `pmm_free_frame` -/
def pmmFreeFrame (p : Pmm) (physAddr : ℕ) : Pmm := bitmapClear p (physAddr / frameSize)

/-! ## Single frames -/

@[simp] theorem totalFrames_bitmapSet (p : Pmm) (f : ℕ) :
    (bitmapSet p f).totalFrames = p.totalFrames := by
  unfold bitmapSet
  split_ifs <;> rfl

@[simp] theorem totalFrames_bitmapClear (p : Pmm) (f : ℕ) :
    (bitmapClear p f).totalFrames = p.totalFrames := by
  unfold bitmapClear
  split_ifs <;> rfl

theorem test_bitmapSet (p : Pmm) (f g : ℕ) :
    (bitmapSet p f).frameBitmap.test g =
      if g = f ∧ f < p.totalFrames then true else p.frameBitmap.test g := by
  rw [bitmapSet]
  by_cases hf : f ≥ p.totalFrames
  · rw [if_pos hf, if_neg fun h => Nat.not_lt.mpr hf h.2]
  · rw [if_neg hf]
    cases hbit : p.frameBitmap.test f with
    | false =>
      rw [if_pos rfl, Bitmap.test_set]
      by_cases hg : g = f <;> simp [hg, Nat.not_le.mp hf]
    | true =>
      rw [if_neg (by decide)]
      by_cases hg : g = f <;> simp [hg, hbit]

theorem test_bitmapClear (p : Pmm) (f g : ℕ) :
    (bitmapClear p f).frameBitmap.test g =
      if g = f ∧ f < p.totalFrames then false else p.frameBitmap.test g := by
  rw [bitmapClear]
  by_cases hf : f ≥ p.totalFrames
  · rw [if_pos hf, if_neg fun h => Nat.not_lt.mpr hf h.2]
  · rw [if_neg hf]
    cases hbit : p.frameBitmap.test f with
    | true =>
      rw [if_pos rfl, Bitmap.test_clear]
      by_cases hg : g = f <;> simp [hg, Nat.not_le.mp hf]
    | false =>
      rw [if_neg (by decide)]
      by_cases hg : g = f <;> simp [hg, hbit]

theorem bitmapTest_bitmapSet {p : Pmm} {f : ℕ} (hf : f < p.totalFrames) (g : ℕ) :
    bitmapTest (bitmapSet p f) g = if g = f then true else bitmapTest p g := by
  rw [bitmapTest, totalFrames_bitmapSet, test_bitmapSet, bitmapTest]
  by_cases hg : g = f
  · simp [hg, hf]
  · simp [hg]

theorem bitmapTest_bitmapClear {p : Pmm} {f : ℕ} (hf : f < p.totalFrames) (g : ℕ) :
    bitmapTest (bitmapClear p f) g = if g = f then false else bitmapTest p g := by
  rw [bitmapTest, totalFrames_bitmapClear, test_bitmapClear, bitmapTest]
  by_cases hg : g = f
  · simp [hg, hf]
  · simp [hg]

/-- The body of the loop in `mark_region`. -/
theorem test_markFrame (p : Pmm) (available : Bool) (f g : ℕ) :
    (if available then bitmapClear p f else bitmapSet p f).totalFrames = p.totalFrames ∧
      (if available then bitmapClear p f else bitmapSet p f).frameBitmap.test g =
        if g = f ∧ f < p.totalFrames then !available else p.frameBitmap.test g := by
  cases available
  · exact ⟨totalFrames_bitmapSet p f, test_bitmapSet p f g⟩
  · exact ⟨totalFrames_bitmapClear p f, test_bitmapClear p f g⟩

/-! ## Regions -/

/-- Some byte of `[start, stop)` lies in the frame. -/
def Touches (start stop frame : ℕ) : Prop :=
  ∃ byte, start ≤ byte ∧ byte < stop ∧ byte / frameSize = frame

/-- The frames `mark_region` goes over, when the region does not wrap. -/
theorem touches_iff {start stop frame : ℕ} (hne : start < stop)
    (hframe : frame < pmmMaxMemory / frameSize) :
    Touches start stop frame ↔ start < pmmMaxMemory ∧ start / frameSize ≤ frame ∧
      frame < (min stop pmmMaxMemory + frameSize - 1) / frameSize := by
  simp only [Touches, frameSize, pmmMaxMemory] at *
  constructor
  · rintro ⟨byte, h1, h2, rfl⟩
    omega
  · rintro ⟨h1, h2, h3⟩
    rcases Nat.le_total start (frame * 4096) with h | h
    · exact ⟨frame * 4096, h, by omega, by omega⟩
    · exact ⟨start, le_rfl, hne, by omega⟩

/-- The loop of `mark_region` gives the frames of its range the same bit. -/
theorem markFrames_spec (p : Pmm) (available : Bool) {first last : ℕ} (hle : first ≤ last) :
    (forRange first last (fun p f => if available then bitmapClear p f else bitmapSet p f)
        p).totalFrames = p.totalFrames ∧
      ∀ g < p.totalFrames,
        (forRange first last (fun p f => if available then bitmapClear p f else bitmapSet p f)
          p).frameBitmap.test g =
        if first ≤ g ∧ g < last then !available else p.frameBitmap.test g := by
  refine forRange_rule
    (fun i (t : Pmm) => t.totalFrames = p.totalFrames ∧ ∀ g < p.totalFrames, t.frameBitmap.test g =
      if first ≤ g ∧ g < i then !available else p.frameBitmap.test g) hle ?_ ?_
  · refine ⟨rfl, fun g _ => ?_⟩
    rw [if_neg (by omega)]
  · rintro i t hi - ⟨htotal, htest⟩
    refine ⟨(test_markFrame t available i 0).1.trans htotal, fun g hg => ?_⟩
    rw [(test_markFrame t available i g).2, htest g hg, htotal]
    -- the frame of this round, the ones before it, and the rest
    rcases Nat.lt_trichotomy g i with h | rfl | h
    · rw [if_neg (by omega)]
      by_cases hfirst : first ≤ g
      · rw [if_pos ⟨hfirst, h⟩, if_pos ⟨hfirst, by omega⟩]
      · rw [if_neg (by omega), if_neg (by omega)]
    · rw [if_pos ⟨rfl, hg⟩, if_pos ⟨hi, Nat.lt_succ_self g⟩]
    · rw [if_neg (by omega), if_neg (by omega), if_neg (by omega)]

/-- Marking gives every frame that the region touches the same bit, and leaves the others alone.
The hypothesis on the sum is what keeps the end of the region from wrapping. -/
theorem markRegion_spec (p : Pmm) (addr len : ℕ) (available : Bool)
    (hsum : addr + len < 2 ^ 64) (htotal : p.totalFrames ≤ pmmMaxMemory / frameSize) :
    (markRegion p addr len available).totalFrames = p.totalFrames ∧
      ∀ f < p.totalFrames,
        (Touches addr (addr + len) f →
          (markRegion p addr len available).frameBitmap.test f = !available) ∧
        (¬Touches addr (addr + len) f →
          (markRegion p addr len available).frameBitmap.test f = p.frameBitmap.test f) := by
  rw [markRegion]
  by_cases hout : len = 0 ∨ addr ≥ pmmMaxMemory
  · rw [if_pos hout]
    refine ⟨rfl, fun f hf => ⟨?_, fun _ => rfl⟩⟩
    rintro ⟨byte, h1, h2, rfl⟩
    simp only [frameSize, pmmMaxMemory] at *
    omega
  · rw [if_neg hout]
    dsimp only
    rw [Nat.mod_eq_of_lt hsum]
    have hstop : (if addr + len > pmmMaxMemory then pmmMaxMemory else addr + len) =
        min (addr + len) pmmMaxMemory := by
      rw [min_def]
      split_ifs <;> omega
    have hle : addr / frameSize ≤
        (min (addr + len) pmmMaxMemory + frameSize - 1) / frameSize := by
      simp only [frameSize, pmmMaxMemory] at *
      omega
    obtain ⟨ht, htest⟩ := markFrames_spec p available hle
    rw [hstop]
    refine ⟨ht, fun f hf => ?_⟩
    have htouch := touches_iff (show addr < addr + len by omega)
      (Nat.lt_of_lt_of_le hf htotal)
    rw [htest f hf, htouch]
    constructor
    · rintro ⟨-, h1, h2⟩
      rw [if_pos ⟨h1, h2⟩]
    · intro h
      rw [if_neg fun h' => h ⟨by omega, h'⟩]

/-! ## After `pmm_init` -/

/-- An entry of available RAM. Entries of all other types only stay unmarked. -/
abbrev MmapEntry.IsAvailable (entry : MmapEntry) : Prop := entry.type = multibootMemoryAvailable

/-- Where the managed memory ends: the highest end of an AVAILABLE entry, at
least 16 MiB and at most 1 GiB. -/
def usableEnd (entries : List MmapEntry) : ℕ :=
  min pmmMaxMemory (((entries.filter fun e => decide e.IsAvailable).map
    fun e => e.addr + e.len).foldl max (16 * 1024 * 1024))

/-- A frame that is free after `pmm_init`: managed, outside the first MiB and the kernel image,
and touched by an AVAILABLE entry. It is said of the memory map and the image alone, so the order
of the entries and how they are spread over tags do not matter. -/
structure BootFree (image : KernelImage) (entries : List MmapEntry) (frame : ℕ) : Prop where
  /-- managed -/
  managed : (frame + 1) * frameSize ≤ usableEnd entries
  /-- not in the first MiB -/
  above : 2 ^ 20 ≤ frame * frameSize
  /-- not of the kernel -/
  kernel : ¬Touches image.kernelStart image.kernelEnd frame
  /-- touched by RAM -/
  available : ∃ entry ∈ entries, entry.IsAvailable ∧
    Touches entry.addr (entry.addr + entry.len) frame

/-- No entry ends beyond the address space. It is what the additions of `pmm_init` rely on and do
not check. -/
def SumsFit (entries : List MmapEntry) : Prop :=
  ∀ entry ∈ entries, entry.addr + entry.len < 2 ^ 64

/-- No AVAILABLE entry does. The code adds up the others only after it has looked at their type.
-/
def AvailableFit (entries : List MmapEntry) : Prop :=
  ∀ entry ∈ entries, entry.IsAvailable → entry.addr + entry.len < 2 ^ 64

theorem SumsFit.available {entries : List MmapEntry} (h : SumsFit entries) :
    AvailableFit entries :=
  fun entry hmem _ => h entry hmem

/-- The first pass finds the highest end. -/
theorem foldl_highestAvailableEnd {entries : List MmapEntry} (h : AvailableFit entries) :
    ∀ highest, entries.foldl highestAvailableEnd highest =
      ((entries.filter fun e => decide e.IsAvailable).map fun e => e.addr + e.len).foldl max
        highest := by
  induction entries with
  | nil => exact fun _ => rfl
  | cons entry entries ih =>
    intro highest
    obtain ⟨hentry, hentries⟩ := List.forall_mem_cons.mp h
    rw [List.foldl_cons, ih hentries, highestAvailableEnd]
    by_cases ha : entry.IsAvailable
    · rw [if_pos ha, List.filter_cons_of_pos (by simpa using ha), List.map_cons, List.foldl_cons,
        Nat.mod_eq_of_lt (hentry ha), max_def]
      dsimp only
      congr 1
      split_ifs <;> omega
    · rw [if_neg ha, List.filter_cons_of_neg (by simpa using ha)]

theorem le_foldl_max (xs : List ℕ) : ∀ n, n ≤ xs.foldl max n := by
  induction xs with
  | nil => exact fun n => le_rfl
  | cons x xs ih => exact fun n => le_trans (le_max_left n x) (ih _)

/-- Every bit is set. -/
theorem test_pmmReset (highest f : ℕ) : (pmmReset highest).frameBitmap.test f = true := by
  rw [Bitmap.test_eq]
  change (BitVec.allOnes 8).getLsbD (f % 8) = true
  rw [BitVec.getLsbD_allOnes]
  exact decide_eq_true (Nat.mod_lt _ (by decide))

/-- `total_frames` -/
theorem pmmReset_spec (entries : List MmapEntry) (highest : ℕ)
    (h : usableEnd entries = min pmmMaxMemory highest) :
    (pmmReset highest).totalFrames = usableEnd entries / frameSize ∧
      ∀ f, (pmmReset highest).frameBitmap.test f = true := by
  have h16 := le_foldl_max ((entries.filter fun e => decide e.IsAvailable).map
    fun e => e.addr + e.len) (16 * 1024 * 1024)
  have hmin : (if highest > pmmMaxMemory then pmmMaxMemory else highest) = usableEnd entries := by
    rw [h, min_def]
    split_ifs <;> omega
  refine ⟨?_, test_pmmReset highest⟩
  rw [pmmReset]
  dsimp only
  rw [hmin, if_neg]
  simp only [usableEnd, pmmMaxMemory, frameSize] at *
  omega

/-- The second pass frees what an AVAILABLE entry touches. -/
theorem foldl_markAvailable {entries : List MmapEntry} (h : AvailableFit entries) :
    ∀ p : Pmm, p.totalFrames ≤ pmmMaxMemory / frameSize →
      (entries.foldl markAvailable p).totalFrames = p.totalFrames ∧
        ∀ f < p.totalFrames, (entries.foldl markAvailable p).frameBitmap.test f = false ↔
          p.frameBitmap.test f = false ∨ ∃ entry ∈ entries, entry.IsAvailable ∧
            Touches entry.addr (entry.addr + entry.len) f := by
  induction entries with
  | nil => exact fun p _ => ⟨rfl, fun f _ => by simp⟩
  | cons entry entries ih =>
    intro p hp
    obtain ⟨hentry, hentries⟩ := List.forall_mem_cons.mp h
    rw [List.foldl_cons]
    have hone : (markAvailable p entry).totalFrames = p.totalFrames ∧ ∀ f < p.totalFrames,
        (markAvailable p entry).frameBitmap.test f = false ↔ p.frameBitmap.test f = false ∨
          entry.IsAvailable ∧ Touches entry.addr (entry.addr + entry.len) f := by
      rw [markAvailable]
      by_cases ha : entry.IsAvailable
      · rw [if_pos ha]
        obtain ⟨ht, hf⟩ := markRegion_spec p entry.addr entry.len true (hentry ha) hp
        refine ⟨ht, fun f hlt => ?_⟩
        by_cases htouch : Touches entry.addr (entry.addr + entry.len) f
        · exact ⟨fun _ => Or.inr ⟨ha, htouch⟩, fun _ => (hf f hlt).1 htouch⟩
        · simp [(hf f hlt).2 htouch, htouch]
      · rw [if_neg ha]
        exact ⟨rfl, fun f _ => by simp [ha]⟩
    obtain ⟨ht, hf⟩ := ih hentries (markAvailable p entry) (hone.1 ▸ hp)
    refine ⟨ht.trans hone.1, fun f hlt => ?_⟩
    rw [hf f (hone.1 ▸ hlt), hone.2 f hlt, or_assoc, List.exists_mem_cons_iff]

/-- The reservations at the end. -/
theorem pmmReserve_spec (image : KernelImage) (p : Pmm)
    (hp : p.totalFrames ≤ pmmMaxMemory / frameSize) :
    (pmmReserve image p).totalFrames = p.totalFrames ∧
      ∀ f < p.totalFrames, (pmmReserve image p).frameBitmap.test f = false ↔
        2 ^ 20 ≤ f * frameSize ∧ ¬Touches image.kernelStart image.kernelEnd f ∧
          p.frameBitmap.test f = false := by
  obtain ⟨ht₁, hf₁⟩ := markRegion_spec p 0 (1024 * 1024) false (by decide) hp
  have hsub : image.kernelStart + (image.kernelEnd - image.kernelStart) = image.kernelEnd :=
    Nat.add_sub_cancel' image.start_le
  obtain ⟨ht₂, hf₂⟩ := markRegion_spec (markRegion p 0 (1024 * 1024) false) image.kernelStart
    (image.kernelEnd - image.kernelStart) false (by rw [hsub]; exact image.end_lt)
    (by rw [ht₁]; exact hp)
  rw [hsub, ht₁] at hf₂
  refine ⟨ht₂.trans ht₁, fun f hlt => ?_⟩
  have hlow : Touches 0 (0 + 1024 * 1024) f ↔ ¬2 ^ 20 ≤ f * frameSize := by
    rw [touches_iff (by decide) (Nat.lt_of_lt_of_le hlt hp)]
    simp only [frameSize, pmmMaxMemory]
    omega
  change (markRegion _ _ _ false).frameBitmap.test f = false ↔ _
  by_cases hk : Touches image.kernelStart image.kernelEnd f
  · simp [(hf₂ f hlt).1 hk, hk]
  · rw [(hf₂ f hlt).2 hk]
    by_cases hl : Touches 0 (0 + 1024 * 1024) f
    · rw [(hf₁ f hlt).1 hl]
      exact ⟨fun h => absurd h (by decide), fun h => absurd h.1 (hlow.mp hl)⟩
    · have h20 := not_not.mp (mt hlow.mpr hl)
      rw [(hf₁ f hlt).2 hl]
      exact ⟨fun h => ⟨h20, hk, h⟩, fun h => h.2.2⟩

/-- `pmm_init` on a well-formed block returns, and what it leaves free does not
depend on the order of the entries. -/
theorem pmmInit_spec (image : KernelImage) {mb : Block} {tags : List Tag}
    (h : WellFormed mb tags) (hsum : AvailableFit (mmapEntries tags)) {fuel : ℕ}
    (hfuel : mbTotalSize mb ≤ fuel) :
    ∃ p, pmmInit image mb fuel = some p ∧
      p.totalFrames = usableEnd (mmapEntries tags) / frameSize ∧
      ∀ f, bitmapTest p f = false ↔ BootFree image (mmapEntries tags) f := by
  set entries := mmapEntries tags
  set p := pmmReset (entries.foldl highestAvailableEnd (16 * 1024 * 1024)) with hp
  obtain ⟨htotal, hreset⟩ := pmmReset_spec entries _
    (congrArg (min pmmMaxMemory) (foldl_highestAvailableEnd hsum _).symm)
  rw [← hp] at htotal hreset
  have hle : p.totalFrames ≤ pmmMaxMemory / frameSize := by
    rw [htotal]
    exact Nat.div_le_div_right (min_le_left _ _)
  obtain ⟨ht₁, hf₁⟩ := foldl_markAvailable hsum p hle
  obtain ⟨ht₂, hf₂⟩ := pmmReserve_spec image (entries.foldl markAvailable p) (ht₁ ▸ hle)
  refine ⟨pmmReserve image (entries.foldl markAvailable p), ?_, ht₂.trans (ht₁.trans htotal),
    fun f => ?_⟩
  · rw [pmmInit, walkEntries_eq h hfuel]
    dsimp only
    rw [walkEntries_eq h hfuel]
  · have hmanaged : f < p.totalFrames ↔ (f + 1) * frameSize ≤ usableEnd entries := by
      rw [htotal]
      simp only [frameSize]
      omega
    rw [bitmapTest, ht₂, ht₁]
    by_cases hlt : f < p.totalFrames
    · rw [if_neg (Nat.not_le.mpr hlt), hf₂ f (ht₁ ▸ hlt), hf₁ f hlt]
      simp only [hreset f, Bool.true_eq_false, false_or]
      exact ⟨fun ⟨h1, h2, h3⟩ => ⟨hmanaged.mp hlt, h1, h2, h3⟩,
        fun hb => ⟨hb.above, hb.kernel, hb.available⟩⟩
    · rw [if_pos (Nat.not_lt.mp hlt)]
      exact ⟨fun h => absurd h (by decide),
        fun hb => absurd (hmanaged.mpr hb.managed) hlt⟩

end WaluOs
