import Mathlib.Data.Finset.Max
import Mathlib.Data.Finset.Sort

/-!
# Pools that give out their least element

A pool is a finite set of which one takes the least element that will do, and into which one
puts elements back. What a search from the low end of an array does is this, if the array is
read as the set of its free places.

Taking one element after the other, without putting any back, gives the pool in ascending
order, and then nothing (`drain_eq`).
-/

namespace LeastPool

variable {α : Type*} [LinearOrder α]

/-- The least element that will do. -/
def least (pool : Finset α) (p : α → Prop) [DecidablePred p] : Option α :=
  if h : (pool.filter p).Nonempty then some ((pool.filter p).min' h) else none

/-- Take it. -/
def take (pool : Finset α) (p : α → Prop) [DecidablePred p] : Finset α × Option α :=
  match least pool p with
  | none => (pool, none)
  | some a => (pool.erase a, some a)

/-- Take so many, any of them. -/
def drain : ℕ → Finset α → List (Option α)
  | 0, _ => []
  | n + 1, pool => (take pool fun _ => True).2 :: drain n (take pool fun _ => True).1

section

variable {pool : Finset α} {p : α → Prop} [DecidablePred p] {a : α}

theorem least_of_none (h : ∀ a ∈ pool, ¬p a) : least pool p = none := by
  rw [least, dif_neg]
  rintro ⟨a, ha⟩
  obtain ⟨hmem, hp⟩ := Finset.mem_filter.mp ha
  exact h a hmem hp

theorem least_of_some (hmem : a ∈ pool) (hp : p a) (hle : ∀ b ∈ pool, p b → a ≤ b) :
    least pool p = some a := by
  have ha : a ∈ pool.filter p := Finset.mem_filter.mpr ⟨hmem, hp⟩
  rw [least, dif_pos ⟨a, ha⟩]
  refine congrArg some (le_antisymm (Finset.min'_le _ a ha) (Finset.le_min' _ _ _ fun b hb => ?_))
  obtain ⟨hb, hpb⟩ := Finset.mem_filter.mp hb
  exact hle b hb hpb

/-- Nothing will do. -/
theorem take_of_none (h : ∀ a ∈ pool, ¬p a) : take pool p = (pool, none) := by
  rw [take, least_of_none h]

/-- This will do, and nothing less. -/
theorem take_of_some (hmem : a ∈ pool) (hp : p a) (hle : ∀ b ∈ pool, p b → a ≤ b) :
    take pool p = (pool.erase a, some a) := by
  rw [take, least_of_some hmem hp hle]

end

/-- **A pool is given out in ascending order.** -/
theorem drain_eq (n : ℕ) : ∀ pool : Finset α,
    drain n pool = (pool.sort.take n).map some ++ List.replicate (n - pool.card) none := by
  induction n with
  | zero =>
    intro pool
    rw [drain, List.take_zero, Nat.zero_sub]
    rfl
  | succ n ih =>
    intro pool
    rcases pool.eq_empty_or_nonempty with rfl | hne
    · have hnone : take (∅ : Finset α) (fun _ => True) = (∅, none) :=
        take_of_none fun a ha => absurd ha (Finset.notMem_empty a)
      rw [drain, hnone, ih, Finset.sort_empty, List.take_nil, List.take_nil, Finset.card_empty,
        Nat.sub_zero, Nat.sub_zero]
      rfl
    · have hmem := pool.min'_mem hne
      have htake := take_of_some (p := fun _ => True) hmem trivial fun b hb _ => pool.min'_le b hb
      have hsort : pool.sort = pool.min' hne :: (pool.erase (pool.min' hne)).sort := by
        rw [← Finset.sort_insert (r := (· ≤ ·))
          (fun b hb => pool.min'_le b (Finset.mem_of_mem_erase hb)) (Finset.notMem_erase _ _),
          Finset.insert_erase hmem]
      have hcard := Finset.card_erase_add_one hmem
      rw [drain, htake]
      dsimp only
      rw [ih, hsort, List.take_succ_cons, List.map_cons, List.cons_append, ← hcard,
        Nat.add_sub_add_right]

end LeastPool
