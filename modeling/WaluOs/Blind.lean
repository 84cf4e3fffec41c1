import WaluOs.Loops

/-!
# Functions that do not look at something

A family of changes overwrites, or adds to, a part of a state. A function is blind to it when
it commutes with every change: it neither reads that part nor undoes the change. Functions
that are composed of blind ones, that branch on something else or repeat a blind step are
blind.
-/

namespace Blindness

universe u v w

variable {ι : Type u} {σ : Type v}

/-- `f` commutes with the changes. -/
def Blind (change : ι → σ → σ) (f : σ → σ) : Prop := ∀ i s, f (change i s) = change i (f s)

variable {change : ι → σ → σ} {f g : σ → σ}

theorem Blind.id : Blind change fun s => s := fun _ _ => rfl

theorem Blind.comp (hg : Blind change g) (hf : Blind change f) :
    Blind change fun s => g (f s) := by
  intro i s
  dsimp only
  rw [hf, hg]

/-- A branch on something else. -/
theorem Blind.ite {p : σ → Prop} [DecidablePred p] (hp : ∀ i s, p (change i s) ↔ p s)
    (hf : Blind change f) (hg : Blind change g) :
    Blind change fun s => if p s then f s else g s := by
  intro i s
  dsimp only
  rw [apply_ite (change i), hf, hg]
  exact if_congr (hp i s) rfl rfl

/-- A run of blind steps. -/
theorem Blind.foldl {α : Type w} {step : σ → α → σ} (h : ∀ a, Blind change fun s => step s a)
    (as : List α) : Blind change fun s => as.foldl step s := by
  induction as with
  | nil => exact Blind.id
  | cons a as ih =>
    intro i s
    exact (congrArg (fun t => as.foldl step t) (h a i s)).trans (ih i _)

/-- A loop whose bounds and body look at something else. -/
theorem Blind.forRange {body : σ → ℕ → σ} {first last : σ → ℕ}
    (hfirst : ∀ i s, first (change i s) = first s) (hlast : ∀ i s, last (change i s) = last s)
    (hbody : ∀ n, Blind change fun s => body s n) :
    Blind change fun s => Loops.forRange (first s) (last s) body s := by
  intro i s
  dsimp only
  rw [hfirst, hlast]
  exact Blind.foldl hbody _ i s

end Blindness
