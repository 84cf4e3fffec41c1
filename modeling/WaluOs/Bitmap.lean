import Mathlib.Data.Finset.Card
import Mathlib.Data.Finset.Range
import Mathlib.Data.Nat.Basic
import Mathlib.Logic.Function.Basic

/-!
# Bitmaps in bytes

A set of numbers as an array of bytes, number `f` being bit `f % 8` of byte
`f / 8`. The operations are written as such code writes them, with a mask; the
laws are about membership.
-/

/-- An array of bytes, one bit for each number. -/
abbrev Bitmap : Type := ℕ → BitVec 8

namespace Bitmap

/-- The mask of a number within its byte. -/
def mask (f : ℕ) : BitVec 8 := 1#8 <<< (f % 8)

/-- Is the bit set? Byte and bit are found as the kernel finds them, the low bits of a byte first.
-/
def test (b : Bitmap) (f : ℕ) : Bool := b (f / 8) &&& mask f != 0

/-- Set the bit. -/
def set (b : Bitmap) (f : ℕ) : Bitmap :=
  Function.update b (f / 8) (b (f / 8) ||| mask f)

/-- Clear the bit. -/
def clear (b : Bitmap) (f : ℕ) : Bitmap :=
  Function.update b (f / 8) (b (f / 8) &&& ~~~mask f)

theorem mask_getLsbD {f i : ℕ} (hi : i < 8) : (mask f).getLsbD i = decide (i = f % 8) := by
  have hf : f % 8 < 8 := Nat.mod_lt _ (by decide)
  rw [mask, BitVec.getLsbD_shiftLeft]
  by_cases h : i = f % 8
  · simp [h, hf]
  · rcases Nat.lt_or_gt_of_ne h with h' | h'
    · simp [h, h', hi]
    · have : i - f % 8 ≠ 0 := by omega
      simp [h, hi, this]

/-- Testing is reading the bit. -/
theorem test_eq (b : Bitmap) (f : ℕ) : b.test f = (b (f / 8)).getLsbD (f % 8) := by
  have hf : f % 8 < 8 := Nat.mod_lt _ (by decide)
  have hbit : b (f / 8) &&& mask f = if (b (f / 8)).getLsbD (f % 8) then mask f else 0#8 := by
    apply BitVec.eq_of_getLsbD_eq
    intro i hi
    rw [BitVec.getLsbD_and, mask_getLsbD hi]
    by_cases h : i = f % 8
    · subst h
      cases (b (f / 8)).getLsbD (f % 8) <;> simp [mask_getLsbD hf]
    · cases hb : (b (f / 8)).getLsbD (f % 8) <;> simp [h, mask_getLsbD hi]
  have hmask : mask f ≠ 0#8 := fun h => by
    have := mask_getLsbD (f := f) hf
    rw [h] at this
    simp at this
  rw [test, hbit]
  cases (b (f / 8)).getLsbD (f % 8) <;> simp [hmask]

/-- A bitmap is its bits. -/
theorem eq_of_test {b c : Bitmap} (h : ∀ f, b.test f = c.test f) : b = c := by
  funext n
  apply BitVec.eq_of_getLsbD_eq
  intro i hi
  have hbit := h (8 * n + i)
  have hdiv : (8 * n + i) / 8 = n := by omega
  have hmod : (8 * n + i) % 8 = i := by omega
  rwa [test_eq, test_eq, hdiv, hmod] at hbit

theorem eq_of_div_mod {f g : ℕ} (hd : g / 8 = f / 8) (hm : g % 8 = f % 8) : g = f := by
  omega

theorem test_set (b : Bitmap) (f g : ℕ) : (b.set f).test g = (decide (g = f) || b.test g) := by
  have hg : g % 8 < 8 := Nat.mod_lt _ (by decide)
  rw [test_eq, test_eq, set]
  by_cases hd : g / 8 = f / 8
  · rw [hd, Function.update_self, BitVec.getLsbD_or, mask_getLsbD hg, Bool.or_comm]
    congr 1
    exact decide_eq_decide.mpr ⟨eq_of_div_mod hd, fun h => by rw [h]⟩
  · have hne : g ≠ f := fun h => hd (by rw [h])
    rw [Function.update_of_ne hd]
    simp [hne]

theorem test_clear (b : Bitmap) (f g : ℕ) : (b.clear f).test g = (!decide (g = f) && b.test g) := by
  have hg : g % 8 < 8 := Nat.mod_lt _ (by decide)
  rw [test_eq, test_eq, clear]
  by_cases hd : g / 8 = f / 8
  · rw [hd, Function.update_self, BitVec.getLsbD_and, BitVec.getLsbD_not, mask_getLsbD hg,
      Bool.and_comm]
    have : decide (g % 8 = f % 8) = decide (g = f) :=
      decide_eq_decide.mpr ⟨eq_of_div_mod hd, fun h => by rw [h]⟩
    simp [this, hg]
  · have hne : g ≠ f := fun h => hd (by rw [h])
    rw [Function.update_of_ne hd]
    simp [hne]

/-! ## Counting -/

/-- The numbers below `n` whose bit is set, as a set, so that they can be counted. -/
def below (b : Bitmap) (n : ℕ) : Finset ℕ := (Finset.range n).filter fun f => b.test f = true

theorem mem_below {b : Bitmap} {n f : ℕ} : f ∈ b.below n ↔ f < n ∧ b.test f = true := by
  rw [below, Finset.mem_filter, Finset.mem_range]

theorem card_below_le (b : Bitmap) (n : ℕ) : (b.below n).card ≤ n := by
  have hle := Finset.card_filter_le (Finset.range n) fun f => b.test f = true
  rwa [Finset.card_range] at hle

/-- Every bit is set. -/
theorem card_below_full {b : Bitmap} {n : ℕ} (h : ∀ f < n, b.test f = true) :
    (b.below n).card = n := by
  rw [below, Finset.filter_true_of_mem fun f hf => h f (Finset.mem_range.mp hf), Finset.card_range]

/-- One bit more. -/
theorem card_below_set {b : Bitmap} {n f : ℕ} (hf : f < n) (hclear : b.test f = false) :
    ((b.set f).below n).card = (b.below n).card + 1 := by
  have hinsert : (b.set f).below n = insert f (b.below n) := by
    ext g
    rw [Finset.mem_insert, mem_below, mem_below, test_set, Bool.or_eq_true, decide_eq_true_iff]
    constructor
    · rintro ⟨hg, rfl | htest⟩
      · exact Or.inl rfl
      · exact Or.inr ⟨hg, htest⟩
    · rintro (rfl | ⟨hg, htest⟩)
      · exact ⟨hf, Or.inl rfl⟩
      · exact ⟨hg, Or.inr htest⟩
  have hnew : f ∉ b.below n := by
    rw [mem_below, hclear]
    exact fun h => absurd h.2 (by decide)
  rw [hinsert, Finset.card_insert_of_notMem hnew]

/-- One bit less. -/
theorem card_below_clear {b : Bitmap} {n f : ℕ} (hf : f < n) (hset : b.test f = true) :
    ((b.clear f).below n).card + 1 = (b.below n).card := by
  have herase : (b.clear f).below n = (b.below n).erase f := by
    ext g
    rw [Finset.mem_erase, mem_below, mem_below, test_clear, Bool.and_eq_true, Bool.not_eq_true',
      decide_eq_false_iff_not]
    exact and_left_comm
  rw [herase]
  exact Finset.card_erase_add_one (mem_below.mpr ⟨hf, hset⟩)

end Bitmap
