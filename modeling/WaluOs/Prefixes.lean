import Mathlib.Data.List.Induction
import Mathlib.Data.List.Infix

/-!
# What holds all along a run

A run is a list of steps, and what it has led to is a matter of the list. A property that
holds all along the run, behind every prefix, fails for the first time at some step. Where the
steps that can break it are known, it holds all along a run exactly when the run has no such
step.
-/

namespace Prefixes

universe u

variable {α : Type u} {Ok Inv : List α → Prop} {Good : List α → α → Prop}

/-- A step of a run is a step of its front part, or the last one. -/
theorem concat_iff {p q : List α} {a b : α} :
    q ++ [b] <+: p ++ [a] ↔ (q = p ∧ b = a) ∨ q ++ [b] <+: p := by
  rw [List.prefix_concat_iff]
  refine or_congr_left ⟨fun h => ?_, fun ⟨hq, hb⟩ => by rw [hq, hb]⟩
  obtain ⟨hq, hb⟩ := List.append_inj' h rfl
  exact ⟨hq, List.singleton_inj.mp hb⟩

/-- The empty run has no step. -/
theorem not_concat_prefix_nil {q : List α} {b : α} : ¬q ++ [b] <+: [] := fun h =>
  List.append_ne_nil_of_right_ne_nil q (List.cons_ne_nil b []) (List.prefix_nil.mp h)

section invariant

variable {xs : List α} (hstart : Inv [])
  (hkeep : ∀ p a, p ++ [a] <+: xs → Inv p → Good p a → Inv (p ++ [a]))

include hstart hkeep

/-- An invariant that every good step of the run keeps. -/
theorem invariant (h : ∀ p a, p ++ [a] <+: xs → Good p a) {p : List α} (hp : p <+: xs) :
    Inv p := by
  induction p using List.reverseRecOn with
  | nil => exact hstart
  | append_singleton p a ih =>
    exact hkeep p a hp (ih ((List.prefix_append ..).trans hp)) (h p a hp)

/-- While every step is good an invariant holds, which says more than the property; and where
it holds, a step behind which the property holds is good. -/
theorem forall_iff_of_invariant (hok : ∀ p, Inv p → Ok p)
    (hgood : ∀ p a, p ++ [a] <+: xs → Inv p → Ok (p ++ [a]) → Good p a) :
    (∀ p, p <+: xs → Ok p) ↔ ∀ p a, p ++ [a] <+: xs → Good p a := by
  constructor
  · intro h p a hp
    -- up to here every step was good
    have hinv : ∀ q, q <+: p → Inv q := by
      intro q
      induction q using List.reverseRecOn with
      | nil => exact fun _ => hstart
      | append_singleton q b ih =>
        intro hq
        have hbefore := ih ((List.prefix_append ..).trans hq)
        have hle : q ++ [b] <+: xs := hq.trans ((List.prefix_append ..).trans hp)
        exact hkeep q b hle hbefore (hgood q b hle hbefore (h _ hle))
    exact hgood p a hp (hinv p (List.prefix_refl p)) (h _ hp)
  · exact fun h p hp => hok p (invariant hstart hkeep h hp)

end invariant

/-- The property is its own invariant. -/
theorem forall_iff (hstart : Ok []) (hstep : ∀ p a, Ok p → (Ok (p ++ [a]) ↔ Good p a))
    (xs : List α) : (∀ p, p <+: xs → Ok p) ↔ ∀ p a, p ++ [a] <+: xs → Good p a :=
  forall_iff_of_invariant hstart (fun p a _ h => (hstep p a h).mpr) (fun _ h => h)
    fun p a _ h => (hstep p a h).mp

end Prefixes
