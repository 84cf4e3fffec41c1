import Mathlib.Data.List.Basic

/-!
# Machines that read a stream and write one

A machine is its step function: a state and an input give the next state and a list
of outputs, which may be empty. This file fixes none of the three types.

* `run` — a stream through a machine.
* `comp` — two machines, the outputs of the first read by the second.
* `exists_run` — what can be written piece by piece can be written.
* `run_code` — a machine that is back where it started after each code word reads a
  concatenation of code words word by word.
* `Follows` — a program that keeps a machine's state among other things, and acts on
  its outputs; over a stream it does what the run says (`Follows.foldl`).
-/

universe u v w x y

namespace Mealy

variable {σ : Type u} {α : Type v} {β : Type w}

/-- A stream: the last state, and all outputs in order. -/
def run (step : σ → α → σ × List β) (s : σ) : List α → σ × List β
  | [] => (s, [])
  | a :: as => ((run step (step s a).1 as).1, (step s a).2 ++ (run step (step s a).1 as).2)

section Run

variable {step : σ → α → σ × List β} {s : σ}

@[simp] theorem run_nil : run step s [] = (s, []) := rfl

theorem run_cons (a : α) (as : List α) :
    run step s (a :: as) =
      ((run step (step s a).1 as).1, (step s a).2 ++ (run step (step s a).1 as).2) :=
  rfl

@[simp] theorem run_singleton (a : α) : run step s [a] = step s a := by
  rw [run_cons, run_nil, List.append_nil]

theorem run_append (as bs : List α) :
    run step s (as ++ bs) =
      ((run step (run step s as).1 bs).1,
        (run step s as).2 ++ (run step (run step s as).1 bs).2) := by
  induction as generalizing s with
  | nil => rfl
  | cons a as ih => rw [List.cons_append, run_cons, ih, run_cons, List.append_assoc]

/-- What every step keeps, a stream keeps. -/
theorem run_keeps {P : σ → Prop} (hstep : ∀ s a, P s → P (step s a).1) (h : P s) (as : List α) :
    P (run step s as).1 := by
  induction as generalizing s with
  | nil => exact h
  | cons a as ih => exact ih (hstep s a h)

/-- What every step puts out, a stream puts out. -/
theorem run_outputs {Q : β → Prop} (hstep : ∀ s a, ∀ b ∈ (step s a).2, Q b) (as : List α) :
    ∀ b ∈ (run step s as).2, Q b := by
  induction as generalizing s with
  | nil => exact fun _ hb => absurd hb List.not_mem_nil
  | cons a as ih =>
    intro b hb
    rcases List.mem_append.mp hb with hb | hb
    · exact hstep s a b hb
    · exact ih b hb

/-- Pieces that a machine can be made to write one by one, with a good state after each, it can
be made to write in a row. -/
theorem exists_run {γ : Type x} {δ : Type y} {P : σ → Prop} {read : β → List γ}
    {piece : δ → List γ} {ds : List δ}
    (hpiece : ∀ d ∈ ds, ∀ s, P s →
      ∃ as, P (run step s as).1 ∧ (run step s as).2.flatMap read = piece d) :
    ∀ {s}, P s → ∃ as, P (run step s as).1 ∧ (run step s as).2.flatMap read = ds.flatMap piece := by
  induction ds with
  | nil => exact fun hs => ⟨[], hs, rfl⟩
  | cons d ds ih =>
    intro s hs
    obtain ⟨hd, hds⟩ := List.forall_mem_cons.mp hpiece
    obtain ⟨as, hmid, hfirst⟩ := hd s hs
    obtain ⟨bs, hend, hrest⟩ := ih hds hmid
    refine ⟨as ++ bs, ?_⟩
    rw [run_append, List.flatMap_append, hfirst, hrest]
    exact ⟨hend, rfl⟩

/-- A machine that comes back to `s` after each code word. -/
theorem run_code {γ : Type x} {code : γ → List α} {out : γ → List β} {cs : List γ}
    (hcode : ∀ c ∈ cs, run step s (code c) = (s, out c)) :
    run step s (cs.flatMap code) = (s, cs.flatMap out) := by
  induction cs with
  | nil => rfl
  | cons c cs ih =>
    obtain ⟨hc, hcs⟩ := List.forall_mem_cons.mp hcode
    rw [List.flatMap_cons, run_append, hc, ih hcs, List.flatMap_cons]

end Run

/-! ## Composition -/

section Comp

variable {τ : Type x} {γ : Type y}

/-- The outputs of the first machine, through the second. -/
def comp (step : σ → α → σ × List β) (next : τ → β → τ × List γ) (st : σ × τ) (a : α) :
    (σ × τ) × List γ :=
  (((step st.1 a).1, (run next st.2 (step st.1 a).2).1), (run next st.2 (step st.1 a).2).2)

theorem run_comp {step : σ → α → σ × List β} {next : τ → β → τ × List γ} (as : List α) :
    ∀ (s : σ) (t : τ), run (comp step next) (s, t) as =
      (((run step s as).1, (run next t (run step s as).2).1),
        (run next t (run step s as).2).2) := by
  induction as with
  | nil => exact fun _ _ => rfl
  | cons a as ih =>
    intro s t
    rw [run_cons, run_cons, run_append]
    dsimp only [comp]
    rw [ih]

end Comp

/-! ## Programs that contain a machine -/

section Follows

variable {τ : Type x} {ω : Type y}

/-- `f` keeps the state of the machine in `view`, and performs `act` on `obs` for each
output. -/
structure Follows (step : σ → α → σ × List β) (f : τ → α → τ) (view : τ → σ) (obs : τ → ω)
    (act : ω → β → ω) : Prop where
  /-- the state -/
  state : ∀ t a, view (f t a) = (step (view t) a).1
  /-- the outputs -/
  output : ∀ t a, obs (f t a) = (step (view t) a).2.foldl act (obs t)

/-- A stream. -/
theorem Follows.foldl {step : σ → α → σ × List β} {f : τ → α → τ} {view : τ → σ} {obs : τ → ω}
    {act : ω → β → ω} (h : Follows step f view obs act) (as : List α) :
    ∀ t, view (as.foldl f t) = (run step (view t) as).1 ∧
      obs (as.foldl f t) = (run step (view t) as).2.foldl act (obs t) := by
  induction as with
  | nil => exact fun _ => ⟨rfl, rfl⟩
  | cons a as ih =>
    intro t
    obtain ⟨hview, hobs⟩ := ih (f t a)
    rw [h.state] at hview hobs
    rw [h.output] at hobs
    rw [List.foldl_cons, run_cons]
    refine ⟨hview, hobs.trans ?_⟩
    rw [List.foldl_append]

end Follows

end Mealy
