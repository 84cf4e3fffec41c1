import Mathlib.Data.List.Basic
import Mathlib.Data.List.Range
import Mathlib.Data.Nat.Basic

/-!
# Two loops of C programs

`forRange` is the counted loop `for (i = first; i < last; i++)`: its rule takes
an invariant indexed by the counter.

`walk` is a pointer chasing loop: a position is handled and then replaced by
`next`, until `stop`. Nothing forces the positions to advance, so it takes fuel,
and `none` says that the fuel ran out. `Visits` lists the positions of a walk
that does stop; with more fuel than positions, the walk is a fold over them.
`Reaches` is the same of a walk that may not stop, and `positions` are those of
its first rounds: it stops if the positions advance towards a bound, and it does
not if one of them is its own successor.
-/

namespace Loops

universe u

variable {σ : Type u}

/-! ## Counted loops -/

/-- `for (i = first; i < last; i++) body` -/
def forRange (first last : ℕ) (body : σ → ℕ → σ) (s : σ) : σ :=
  (List.range' first (last - first)).foldl body s

theorem forRange_of_le {first last : ℕ} (h : last ≤ first) (body : σ → ℕ → σ) (s : σ) :
    forRange first last body s = s := by
  rw [forRange, Nat.sub_eq_zero_of_le h]
  rfl

theorem forRange_succ {first last : ℕ} (h : first ≤ last) (body : σ → ℕ → σ) (s : σ) :
    forRange first (last + 1) body s = body (forRange first last body s) last := by
  rw [forRange, Nat.sub_add_comm h, List.range'_1_concat, List.foldl_append,
    Nat.add_sub_cancel' h]
  rfl

/-- An invariant indexed by the counter, established at `first` and carried
through the body, holds at `last`. -/
theorem forRange_rule {first last : ℕ} {body : σ → ℕ → σ} {s : σ} (Inv : ℕ → σ → Prop)
    (hle : first ≤ last) (hstart : Inv first s)
    (hbody : ∀ i t, first ≤ i → i < last → Inv i t → Inv (i + 1) (body t i)) :
    Inv last (forRange first last body s) := by
  induction last, hle using Nat.le_induction with
  | base =>
    rw [forRange_of_le le_rfl]
    exact hstart
  | succ n hn ih =>
    rw [forRange_succ hn]
    exact hbody n _ hn (Nat.lt_succ_self n)
      (ih fun i t hi hlt => hbody i t hi (Nat.lt_succ_of_lt hlt))

/-- An invariant that does not mention the counter. -/
theorem forRange_invariant {first last : ℕ} {body : σ → ℕ → σ} {s : σ} {Inv : σ → Prop}
    (hstart : Inv s) (hbody : ∀ i t, first ≤ i → i < last → Inv t → Inv (body t i)) :
    Inv (forRange first last body s) := by
  rcases Nat.le_total first last with h | h
  · exact forRange_rule (fun _ => Inv) h hstart hbody
  · rw [forRange_of_le h]
    exact hstart

/-- A loop seen through a projection that its body respects. -/
theorem forRange_map {τ : Type*} (proj : σ → τ) {first last : ℕ} {body : σ → ℕ → σ}
    {body' : τ → ℕ → τ} (h : ∀ s i, proj (body s i) = body' (proj s) i) (s : σ) :
    proj (forRange first last body s) = forRange first last body' (proj s) :=
  (List.foldl_hom proj fun s i => (h s i).symm).symm

/-- When every round adds something to what can be observed of the state, the loop
has added what any of its rounds adds. -/
theorem forRange_collects {α : Type*} {n : ℕ} {body : σ → ℕ → σ} {s : σ} (Inv : σ → Prop)
    (obs : σ → α → Prop) {adds : ℕ → α → Prop} (hstart : Inv s)
    (hinv : ∀ i t, i < n → Inv t → Inv (body t i))
    (hadds : ∀ i t, i < n → Inv t → ∀ a, obs (body t i) a ↔ obs t a ∨ adds i a) (a : α) :
    obs (forRange 0 n body s) a ↔ obs s a ∨ ∃ i < n, adds i a := by
  have hrule : Inv (forRange 0 n body s) ∧
      (obs (forRange 0 n body s) a ↔ obs s a ∨ ∃ i < n, adds i a) := by
    refine forRange_rule (fun m t => Inv t ∧ (obs t a ↔ obs s a ∨ ∃ i < m, adds i a))
      (Nat.zero_le n) ⟨hstart, by simp⟩ ?_
    rintro m t - hm ⟨ht, hobs⟩
    refine ⟨hinv m t hm ht, ?_⟩
    rw [hadds m t hm ht, hobs, or_assoc]
    refine or_congr_right ⟨?_, ?_⟩
    · rintro (⟨i, hi, hadd⟩ | hadd)
      · exact ⟨i, Nat.lt_succ_of_lt hi, hadd⟩
      · exact ⟨m, Nat.lt_succ_self m, hadd⟩
    · rintro ⟨i, hi, hadd⟩
      rcases Nat.lt_succ_iff_lt_or_eq.mp hi with hi | rfl
      · exact .inl ⟨i, hi, hadd⟩
      · exact .inr hadd
  exact hrule.2

/-- From `s` to `t` what is observed became `v`, if `p`, and was kept otherwise. A loop that looks
for the last item of a kind is a sequence of these. -/
structure Sets {β : Type*} (obs : σ → β) (p : Prop) (v : β) (s t : σ) : Prop where
  set : p → obs t = v
  kept : ¬p → obs t = obs s

theorem Sets.congr {β : Type*} {obs : σ → β} {p q : Prop} {v : β} {s t : σ}
    (h : Sets obs p v s t) (hpq : p ↔ q) : Sets obs q v s t :=
  ⟨fun hq => h.set (hpq.mpr hq), fun hq => h.kept (mt hpq.mp hq)⟩

/-- When some rounds set what is observed and the others keep it, the loop has set it
if one of its rounds has. -/
theorem forRange_sets {β : Type*} {n : ℕ} {body : σ → ℕ → σ} {s : σ} (Inv : σ → Prop)
    (obs : σ → β) {part : ℕ → Prop} {v : β} (hstart : Inv s)
    (hinv : ∀ i t, i < n → Inv t → Inv (body t i))
    (hsets : ∀ i t, i < n → Inv t → Sets obs (part i) v t (body t i)) :
    Sets obs (∃ i < n, part i) v s (forRange 0 n body s) := by
  have hrule : Inv (forRange 0 n body s) ∧
      Sets obs (∃ i < n, part i) v s (forRange 0 n body s) := by
    refine forRange_rule (fun m t => Inv t ∧ Sets obs (∃ i < m, part i) v s t) (Nat.zero_le n)
      ⟨hstart, ⟨?_, fun _ => rfl⟩⟩ ?_
    · rintro ⟨i, hi, -⟩
      exact absurd hi (Nat.not_lt_zero i)
    · rintro m t - hm ⟨ht, hold⟩
      have hround := hsets m t hm ht
      refine ⟨hinv m t hm ht, ?_, ?_⟩
      · rintro ⟨i, hi, hpart⟩
        by_cases hlast : part m
        · exact hround.set hlast
        · rw [hround.kept hlast]
          rcases Nat.lt_succ_iff_lt_or_eq.mp hi with hi | rfl
          · exact hold.set ⟨i, hi, hpart⟩
          · exact absurd hpart hlast
      · intro hnone
        rw [hround.kept fun hpart => hnone ⟨m, Nat.lt_succ_self m, hpart⟩]
        exact hold.kept fun ⟨i, hi, hpart⟩ => hnone ⟨i, Nat.lt_succ_of_lt hi, hpart⟩
  exact hrule.2

/-- Two loops side by side, over states that stay related. -/
theorem forRange_rel {τ : Type*} (Rel : σ → τ → Prop) {first last : ℕ} {body : σ → ℕ → σ}
    {body' : τ → ℕ → τ} {s : σ} {t : τ} (hstart : Rel s t)
    (hbody : ∀ i s t, first ≤ i → i < last → Rel s t → Rel (body s i) (body' t i)) :
    Rel (forRange first last body s) (forRange first last body' t) := by
  rcases Nat.le_total last first with h | h
  · rw [forRange_of_le h, forRange_of_le h]
    exact hstart
  · induction last, h using Nat.le_induction with
    | base =>
      rw [forRange_of_le le_rfl, forRange_of_le le_rfl]
      exact hstart
    | succ n hn ih =>
      rw [forRange_succ hn, forRange_succ hn]
      exact hbody n _ _ hn (Nat.lt_succ_self n)
        (ih fun i s t hi hlt => hbody i s t hi (Nat.lt_succ_of_lt hlt))

/-! ## Walks -/

variable (next : ℕ → ℕ) (stop : ℕ → Bool) (body : σ → ℕ → Option σ)

/-- Handle `p`, go on at `next p`, end at `stop`. -/
def walk : ℕ → ℕ → σ → Option σ
  | 0, _, _ => none
  | fuel + 1, p, s =>
    if stop p then some s
    else
      match body s p with
      | none => none
      | some s' => walk fuel (next p) s'

/-- The positions `ps` are those a walk from `p` handles before it stops. -/
def Visits : ℕ → List ℕ → Prop
  | p, [] => stop p = true
  | p, q :: ps => p = q ∧ stop p = false ∧ Visits (next p) ps

variable {next stop body}

/-- With more fuel than positions, a walk handles each of them in order. -/
theorem walk_eq {ps : List ℕ} :
    ∀ {p fuel : ℕ} {s : σ}, Visits next stop p ps → ps.length < fuel →
      walk next stop body fuel p s = ps.foldlM body s := by
  induction ps with
  | nil =>
    intro p fuel s h hf
    obtain ⟨f, rfl⟩ := Nat.exists_eq_succ_of_ne_zero (Nat.ne_of_gt hf)
    rw [walk, if_pos (show stop p = true from h)]
    rfl
  | cons q ps ih =>
    intro p fuel s h hf
    obtain ⟨rfl, hstop, hrest⟩ := h
    obtain ⟨f, rfl⟩ := Nat.exists_eq_succ_of_ne_zero (Nat.ne_zero_of_lt hf)
    rw [walk, if_neg (by simp [hstop]), List.foldlM_cons]
    cases hb : body s p with
    | none => rfl
    | some s' => exact ih hrest (Nat.lt_of_succ_lt_succ hf)

/-- What every round keeps, the walk keeps. -/
theorem walk_keeps {Inv : σ → Prop}
    (hbody : ∀ s p s', Inv s → body s p = some s' → Inv s') :
    ∀ {fuel p : ℕ} {s s' : σ}, Inv s → walk next stop body fuel p s = some s' → Inv s' := by
  intro fuel
  induction fuel with
  | zero =>
    intro p s s' _ h
    cases h
  | succ fuel ih =>
    intro p s s' hs h
    rw [walk] at h
    split at h
    · obtain rfl := Option.some.inj h
      exact hs
    · cases hb : body s p with
      | none =>
        rw [hb] at h
        cases h
      | some t =>
        rw [hb] at h
        exact ih (hbody s p t hs hb) h

/-! ## Walks that may not stop -/

/-- The positions that a walk from `p` comes to, where it stops included. It does not say how many
there are: a walk may go in a circle. -/
inductive Reaches (next : ℕ → ℕ) (stop : ℕ → Bool) (p : ℕ) : ℕ → Prop where
  /-- the first -/
  | start : Reaches next stop p p
  /-- one behind another that the walk does not stop at -/
  | next {q : ℕ} : Reaches next stop p q → stop q = false → Reaches next stop p (next q)

/-- The positions behind the first one. -/
theorem Reaches.behind {p q : ℕ} (hp : stop p = false) (h : Reaches next stop (next p) q) :
    Reaches next stop p q := by
  induction h with
  | start => exact .next .start hp
  | next _ hq ih => exact .next ih hq

/-- Where the first `n` rounds of a walk from `p` begin, the one that stops it included. The
number of rounds is what a caller is willing to wait for. -/
def positions (next : ℕ → ℕ) (stop : ℕ → Bool) : ℕ → ℕ → List ℕ
  | 0, _ => []
  | n + 1, p => p :: if stop p then [] else positions next stop n (next p)

/-- One round more comes to the next position. -/
theorem next_mem_positions {q : ℕ} (hq : stop q = false) : ∀ {n p : ℕ},
    q ∈ positions next stop n p → next q ∈ positions next stop (n + 1) p := by
  intro n
  induction n with
  | zero =>
    intro p h
    cases h
  | succ n ih =>
    intro p h
    rw [positions]
    rcases List.mem_cons.mp h with rfl | h
    · rw [hq, if_neg Bool.false_ne_true]
      exact List.mem_cons_of_mem _ (List.mem_cons_self ..)
    · split at h
      · cases h
      · rename_i hp
        rw [if_neg hp]
        exact List.mem_cons_of_mem _ (ih h)

/-- The positions that a walk comes to are those of its first rounds, taken far enough. -/
theorem mem_positions_iff {p q : ℕ} :
    (∃ n, q ∈ positions next stop n p) ↔ Reaches next stop p q := by
  constructor
  · rintro ⟨n, h⟩
    induction n generalizing p with
    | zero => cases h
    | succ n ih =>
      rcases List.mem_cons.mp h with rfl | h
      · exact .start
      · split at h
        · cases h
        · rename_i hp
          exact (ih h).behind (Bool.not_eq_true _ ▸ hp)
  · intro h
    induction h with
    | start => exact ⟨1, List.mem_cons_self ..⟩
    | next _ hq ih =>
      obtain ⟨n, hn⟩ := ih
      exact ⟨n + 1, next_mem_positions hq hn⟩

/-- A walk that handles these positions stops at the one behind them. -/
theorem positions_eq {ps : List ℕ} : ∀ {n p : ℕ}, Visits next stop p ps → ps.length < n →
    positions next stop n p = ps ++ [next^[ps.length] p] := by
  induction ps with
  | nil =>
    intro n p h hn
    obtain ⟨n, rfl⟩ := Nat.exists_eq_succ_of_ne_zero (Nat.ne_of_gt hn)
    rw [positions, if_pos (show stop p = true from h)]
    rfl
  | cons q ps ih =>
    intro n p h hn
    obtain ⟨rfl, hstop, hrest⟩ := h
    obtain ⟨n, rfl⟩ := Nat.exists_eq_succ_of_ne_zero (Nat.ne_zero_of_lt hn)
    rw [positions, hstop, if_neg Bool.false_ne_true, ih hrest (Nat.lt_of_succ_lt_succ hn)]
    rfl

/-- What the first position has and every round keeps. -/
theorem Reaches.keeps {Inv : ℕ → Prop} {p q : ℕ} (h : Reaches next stop p q) (hp : Inv p)
    (hnext : ∀ r, stop r = false → Inv r → Inv (next r)) : Inv q := by
  induction h with
  | start => exact hp
  | next _ hr ih => exact hnext _ hr ih

/-- A walk stops if its positions advance towards a bound and every round returns. -/
theorem walk_returns (bound : ℕ) (hbound : ∀ q, bound ≤ q → stop q = true) :
    ∀ {fuel p : ℕ} {s : σ}, bound - p < fuel →
      (∀ q, Reaches next stop p q → stop q = false → q < next q) →
      (∀ q s, Reaches next stop p q → stop q = false → ∃ s', body s q = some s') →
      ∃ s', walk next stop body fuel p s = some s' := by
  intro fuel
  induction fuel with
  | zero => exact fun h => absurd h (Nat.not_lt_zero _)
  | succ fuel ih =>
    intro p s hfuel hnext hbody
    rw [walk]
    cases hp : stop p with
    | true => exact ⟨s, rfl⟩
    | false =>
      obtain ⟨s', hs'⟩ := hbody p s .start hp
      have hlt : p < bound := by
        by_contra hle
        rw [hbound p (Nat.not_lt.mp hle)] at hp
        cases hp
      have hadvance := hnext p .start hp
      rw [if_neg Bool.false_ne_true, hs']
      exact ih (by omega) (fun q hq => hnext q (hq.behind hp))
        fun q s hq => hbody q s (hq.behind hp)

/-- A walk does not stop if it comes to a position that is its own successor, or to one
where the round does not return. -/
theorem walk_stuck {p q : ℕ} (h : Reaches next stop p q) (hq : stop q = false)
    (hloop : next q = q ∨ ∀ s, body s q = none) (fuel : ℕ) (s : σ) :
    walk next stop body fuel p s = none := by
  have hstuck : ∀ fuel s, walk next stop body fuel q s = none := by
    intro fuel
    induction fuel with
    | zero => exact fun _ => rfl
    | succ fuel ih =>
      intro s
      rw [walk, hq, if_neg Bool.false_ne_true]
      cases hb : body s q with
      | none => rfl
      | some s' =>
        rcases hloop with hself | hnone
        · rw [hself]
          exact ih s'
        · rw [hnone s] at hb
          cases hb
  clear hloop
  -- and so from the start, which is a finite way before it
  revert fuel s
  induction h with
  | start => exact hstuck
  | @next r _ hr ih =>
    refine ih hr fun fuel s => ?_
    cases fuel with
    | zero => rfl
    | succ fuel =>
      rw [walk, hr, if_neg Bool.false_ne_true]
      cases body s r with
      | none => rfl
      | some s' => exact hstuck fuel s'

/-- A fold whose body cannot fail. -/
theorem foldlM_some {α : Type*} {f : σ → α → σ} (xs : List α) :
    ∀ s : σ, xs.foldlM (fun s x => some (f s x)) s = some (xs.foldl f s) := by
  induction xs with
  | nil => exact fun s => rfl
  | cons x xs ih => exact fun s => ih (f s x)

end Loops
