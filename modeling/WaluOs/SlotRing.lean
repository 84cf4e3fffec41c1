import Mathlib.Data.Int.ModEq
import Mathlib.Data.List.Basic
import Mathlib.Logic.Function.Basic

/-!
# Rings with one slot kept empty

A ring of `n` slots with a head (next slot to fill) and a tail (next slot to
drain), both advanced modulo `n`. One slot is never filled, so `head = tail`
means empty and `head + 1 = tail` (modulo `n`) means full, and no count is
stored. This file is about any such ring: it fixes neither the slot type nor
the size.

* `contents n r` — the queue the ring stands for, oldest first.
* `push` / `pop` — the two index updates, without their guards.
* `HoldsLast n slots pushed` — the other kind of ring, which is never drained and overwrites.

The laws say what each update does to `contents`; everything else about a ring
follows from them, so no client has to reason about remainders again.
-/

universe u

/-- A ring buffer: the slot array and the two indices. Producer and consumer each move an index of
their own, so a ring is full when one more step of the head would meet the tail, and one slot is
never filled. -/
structure SlotRing (α : Type u) : Type u where
  /-- the slot array -/
  slots : ℕ → α
  /-- the next slot to fill -/
  head : ℕ
  /-- the next slot to drain -/
  tail : ℕ

namespace SlotRing

variable {α : Type u} {n : ℕ}

/-! ## Operations -/

/-- Both indices address a slot. This is all that the operations of a ring rely on: whatever the
two indices are, the slots between them are what is queued. -/
structure InRange (n : ℕ) (r : SlotRing α) : Prop where
  /-- the head is a slot index -/
  head_lt : r.head < n
  /-- the tail is a slot index -/
  tail_lt : r.tail < n

/-- Store `x` in the head slot and advance the head. -/
def push (n : ℕ) (r : SlotRing α) (x : α) : SlotRing α :=
  { r with slots := Function.update r.slots r.head x, head := (r.head + 1) % n }

/-- Advance the tail. -/
def pop (n : ℕ) (r : SlotRing α) : SlotRing α :=
  { r with tail := (r.tail + 1) % n }

/-- How many slots are filled. -/
def count (n : ℕ) (r : SlotRing α) : ℕ := (r.head + n - r.tail) % n

/-- The filled slots, oldest first. Every statement about a queue is made about this list, and the
array and the indices do not occur in it any more. -/
def contents (n : ℕ) (r : SlotRing α) : List α :=
  (List.range (r.count n)).map fun i => r.slots ((r.tail + i) % n)

/-! ## Index arithmetic

Every index below is a sum of two values that are less than `n`, so at most one
`n` is subtracted. The lemmas state that as a disjunction, which is the form
`omega` can use. -/

theorem mod_cases {a : ℕ} (h : a < 2 * n) :
    a < n ∧ a % n = a ∨ n ≤ a ∧ a % n = a - n := by
  by_cases ha : a < n
  · exact Or.inl ⟨ha, Nat.mod_eq_of_lt ha⟩
  · refine Or.inr ⟨by omega, ?_⟩
    rw [Nat.mod_eq_sub_mod (by omega), Nat.mod_eq_of_lt (by omega)]

theorem succ_mod_cases {i : ℕ} (h : i < n) :
    i + 1 < n ∧ (i + 1) % n = i + 1 ∨ i + 1 = n ∧ (i + 1) % n = 0 := by
  have := mod_cases (n := n) (a := i + 1) (by omega)
  omega

theorem InRange.count_cases {r : SlotRing α} (h : r.InRange n) :
    r.tail ≤ r.head ∧ r.count n = r.head - r.tail ∨
      r.head < r.tail ∧ r.count n = r.head + n - r.tail := by
  obtain ⟨hh, ht⟩ := h
  have := mod_cases (n := n) (a := r.head + n - r.tail) (by omega)
  rw [count]
  omega

theorem inRange_zero (hn : 0 < n) (slots : ℕ → α) : InRange n (⟨slots, 0, 0⟩ : SlotRing α) :=
  ⟨hn, hn⟩

theorem InRange.count_lt {r : SlotRing α} (h : r.InRange n) : r.count n < n :=
  Nat.mod_lt _ (Nat.lt_of_le_of_lt (Nat.zero_le _) h.head_lt)

@[simp] theorem length_contents (n : ℕ) (r : SlotRing α) :
    (r.contents n).length = r.count n := by
  simp [contents]

/-! ## Empty and full -/

theorem contents_eq_nil {r : SlotRing α} (h : r.tail = r.head) : r.contents n = [] := by
  rw [contents, count, h, Nat.add_sub_cancel_left, Nat.mod_self, List.range_zero, List.map_nil]

theorem InRange.empty_iff {r : SlotRing α} (h : r.InRange n) :
    r.tail = r.head ↔ r.contents n = [] := by
  rw [← List.length_eq_zero_iff, length_contents]
  have hc := h.count_cases
  obtain ⟨hh, ht⟩ := h
  omega

theorem InRange.full_iff {r : SlotRing α} (h : r.InRange n) :
    (r.head + 1) % n = r.tail ↔ r.count n + 1 = n := by
  have hc := h.count_cases
  obtain ⟨hh, ht⟩ := h
  have hn := succ_mod_cases hh
  omega

@[simp] theorem contents_zero (n : ℕ) (slots : ℕ → α) :
    contents n (⟨slots, 0, 0⟩ : SlotRing α) = [] :=
  contents_eq_nil rfl

/-! ## Push -/

theorem InRange.push {r : SlotRing α} (h : r.InRange n) (x : α) : (r.push n x).InRange n :=
  ⟨Nat.mod_lt _ (Nat.lt_of_le_of_lt (Nat.zero_le _) h.head_lt), h.tail_lt⟩

theorem InRange.count_push {r : SlotRing α} (h : r.InRange n)
    (hfull : (r.head + 1) % n ≠ r.tail) (x : α) :
    (r.push n x).count n = r.count n + 1 := by
  have hc := h.count_cases
  have hc' := (h.push x).count_cases
  obtain ⟨hh, ht⟩ := h
  have hn := succ_mod_cases hh
  simp only [SlotRing.push] at hc' ⊢
  omega

/-- The slots of the queue are not the head slot. -/
theorem InRange.slot_ne_head {r : SlotRing α} (h : r.InRange n) {i : ℕ}
    (hi : i < r.count n) : (r.tail + i) % n ≠ r.head := by
  have hc := h.count_cases
  have hlt := h.count_lt
  obtain ⟨hh, ht⟩ := h
  have hm := mod_cases (n := n) (a := r.tail + i) (by omega)
  omega

/-- The slot after the last one of the queue is the head slot. -/
theorem InRange.slot_count {r : SlotRing α} (h : r.InRange n) :
    (r.tail + r.count n) % n = r.head := by
  have hc := h.count_cases
  have hlt := h.count_lt
  obtain ⟨hh, ht⟩ := h
  have hm := mod_cases (n := n) (a := r.tail + r.count n) (by omega)
  omega

/-- Filling the head slot of a ring that is not full appends to the queue. -/
theorem InRange.contents_push {r : SlotRing α} (h : r.InRange n)
    (hfull : (r.head + 1) % n ≠ r.tail) (x : α) :
    (r.push n x).contents n = r.contents n ++ [x] := by
  rw [contents, h.count_push hfull x, List.range_succ, List.map_append, contents]
  congr 1
  · apply List.map_congr_left
    intro i hi
    exact Function.update_of_ne (h.slot_ne_head (List.mem_range.mp hi)) _ _
  · simp [SlotRing.push, h.slot_count]

/-! ## Pop -/

theorem InRange.pop {r : SlotRing α} (h : r.InRange n) : (r.pop n).InRange n :=
  ⟨h.head_lt, Nat.mod_lt _ (Nat.lt_of_le_of_lt (Nat.zero_le _) h.head_lt)⟩

theorem InRange.count_pop {r : SlotRing α} (h : r.InRange n) (hne : r.tail ≠ r.head) :
    r.count n = (r.pop n).count n + 1 := by
  have hc := h.count_cases
  have hc' := h.pop.count_cases
  obtain ⟨hh, ht⟩ := h
  have hn := succ_mod_cases ht
  simp only [SlotRing.pop] at hc' ⊢
  omega

/-- Advancing the tail of a nonempty ring removes the oldest element, which is
the one in the tail slot. -/
theorem InRange.contents_pop {r : SlotRing α} (h : r.InRange n) (hne : r.tail ≠ r.head) :
    r.contents n = r.slots r.tail :: (r.pop n).contents n := by
  rw [contents, h.count_pop hne, List.range_succ_eq_map, List.map_cons, List.map_map, contents]
  congr 1
  · rw [Nat.add_zero, Nat.mod_eq_of_lt h.tail_lt]
  · apply List.map_congr_left
    intro i _
    change r.slots ((r.tail + (i + 1)) % n) = r.slots (((r.tail + 1) % n + i) % n)
    rw [Nat.mod_add_mod, Nat.add_assoc, Nat.add_comm 1 i]

/-! ## Overwriting

A ring that is not drained has only a head. What is pushed `i`-th goes to slot `i % n`, over what
was pushed `n` pushes before. -/

/-- The slots hold the last `n` of what was pushed. -/
def HoldsLast (n : ℕ) (slots : ℕ → α) (pushed : List α) : Prop :=
  ∀ i x, pushed[i]? = some x → pushed.length ≤ i + n → slots (i % n) = x

theorem HoldsLast.nil (slots : ℕ → α) : HoldsLast n slots [] := by
  intro i x hx _
  rw [List.getElem?_nil] at hx
  exact absurd hx (by simp)

/-- Slots less than `n` pushes apart are different ones. -/
theorem mod_ne_of_lt {i k : ℕ} (hlt : i < k) (hnear : k < i + n) : i % n ≠ k % n := by
  intro heq
  have hdvd : n ∣ k - i := (Nat.modEq_iff_dvd' hlt.le).mp heq
  have hle := Nat.le_of_dvd (Nat.sub_pos_of_lt hlt) hdvd
  omega

theorem HoldsLast.push {slots : ℕ → α} {pushed : List α} (h : HoldsLast n slots pushed) (x : α) :
    HoldsLast n (Function.update slots (pushed.length % n) x) (pushed ++ [x]) := by
  intro i y hy hlast
  rw [List.length_append, List.length_singleton] at hlast
  rcases Nat.lt_trichotomy i pushed.length with hlt | heq | hgt
  · rw [List.getElem?_append_left hlt] at hy
    rw [Function.update_of_ne (mod_ne_of_lt hlt (by omega))]
    exact h i y hy (by omega)
  · rw [heq, List.getElem?_concat_length] at hy
    rw [heq, Function.update_self]
    exact Option.some.inj hy
  · rw [List.getElem?_eq_none (by rw [List.length_append]; exact hgt)] at hy
    exact absurd hy (by simp)

end SlotRing
