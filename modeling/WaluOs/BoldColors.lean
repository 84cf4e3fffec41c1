import WaluOs.ConsoleBackends

/-!
# Bold and colour

Intensity and base colour of the foreground are one number, to which code 1 adds 8 and which a
colour code replaces: `[c, 1]` selects a bright colour and `[1, c]` a dark one. The two lists are
told apart until a later code makes the two foregrounds equal again (`boldOrder_iff`).

The two runs are compared code by code. They agree, or the one is dark where the other is bright
(`SameColors`, `DarkBright`); each code keeps the second relation or leads from it to the first,
and no code leads back.
-/

namespace WaluOs

/-- The codes that make a dark foreground and its bright one equal: all that look at the
foreground or replace it. Behind one of them it makes no difference whether the foreground had
been made bright before. -/
def LevelsForeground (code : ℤ) : Prop :=
  code = 0 ∨ code = 1 ∨ code = 22 ∨ (30 ≤ code ∧ code ≤ 37) ∨ (90 ≤ code ∧ code ≤ 97) ∨ code = 39

instance : DecidablePred LevelsForeground := fun _ => inferInstanceAs (Decidable (_ ∨ _))

/-- The same colours, in the foreground and in the background. These are all that the codes of a
sequence write. -/
structure SameColors (t u : Term) : Prop where
  foreground : t.ansiFg = u.ansiFg
  background : t.ansiBg = u.ansiBg

/-- A dark foreground, and the bright one that belongs to it, in front of the same background.
This is how the two orders of a bold and a colour code differ until a code levels them. -/
structure DarkBright (t u : Term) : Prop where
  dark : t.ansiFg < 8
  bright : u.ansiFg = t.ansiFg + 8
  background : t.ansiBg = u.ansiBg

theorem eight_le_add {v : UInt8} (hv : v < 8) : 8 ≤ v + 8 := by
  have hsum : (v + 8).toNat = v.toNat + 8 := by
    have : v.toNat < 8 := hv
    rw [UInt8.toNat_add]
    show (v.toNat + 8) % 256 = _
    omega
  refine UInt8.le_iff_toNat_le.mpr ?_
  rw [hsum]
  exact Nat.le_add_left 8 _

theorem DarkBright.ne {t u : Term} (h : DarkBright t u) : ¬SameColors t u := by
  intro hsame
  have hbright := eight_le_add h.dark
  rw [← h.bright, ← hsame.foreground] at hbright
  exact absurd (UInt8.lt_of_lt_of_le h.dark hbright) (UInt8.lt_irrefl _)

/-! ## One code -/

/-- The new background does not depend on the foreground. -/
theorem ansiSgrApply_background {t u : Term} (h : t.ansiBg = u.ansiBg) (code : ℤ) :
    (ansiSgrApply t code).ansiBg = (ansiSgrApply u code).ansiBg := by
  simp only [ansiSgrApply, apply_ite Term.ansiBg, h, ite_self]

/-- Nor the new foreground on the background. -/
theorem ansiSgrApply_foreground {t u : Term} (h : t.ansiFg = u.ansiFg) (code : ℤ) :
    (ansiSgrApply t code).ansiFg = (ansiSgrApply u code).ansiFg := by
  simp only [ansiSgrApply, apply_ite Term.ansiFg, h]

/-- A colour replaces the foreground by a dark one. -/
theorem ansiSgrApply_color {color : ℤ} (hcolor : 30 ≤ color ∧ color ≤ 37) (t : Term) :
    ansiSgrApply t color =
      { t with ansiFg := ansiColorToVga (UInt8.ofNat (color - 30).toNat) false } := by
  rw [ansiSgrApply, if_neg (by omega), if_neg (by omega), if_neg (by omega), if_pos hcolor]

theorem ansiColorToVga_dark (ansiColor : UInt8) : ansiColorToVga ansiColor false < 8 := by
  rw [ansiColorToVga]
  exact ansiBaseToVga_lt _

/-- Other codes leave the foreground. -/
theorem ansiSgrApply_other {code : ℤ} (hcode : ¬LevelsForeground code) (t : Term) :
    (ansiSgrApply t code).ansiFg = t.ansiFg := by
  simp only [LevelsForeground, not_or] at hcode
  obtain ⟨h0, h1, h22, h30, h90, h39⟩ := hcode
  rw [ansiSgrApply, if_neg h0, if_neg h1, if_neg h22, if_neg h30, if_neg h90, if_neg h39]
  simp only [apply_ite Term.ansiFg, ite_self]

theorem SameColors.apply {t u : Term} (h : SameColors t u) (code : ℤ) :
    SameColors (ansiSgrApply t code) (ansiSgrApply u code) :=
  ⟨ansiSgrApply_foreground h.foreground code, ansiSgrApply_background h.background code⟩

theorem DarkBright.other {t u : Term} (h : DarkBright t u) {code : ℤ}
    (hcode : ¬LevelsForeground code) :
    DarkBright (ansiSgrApply t code) (ansiSgrApply u code) := by
  refine ⟨?_, ?_, ansiSgrApply_background h.background code⟩
  · rw [ansiSgrApply_other hcode]
    exact h.dark
  · rw [ansiSgrApply_other hcode, ansiSgrApply_other hcode]
    exact h.bright

/-- A code that looks at the foreground or replaces it. -/
theorem DarkBright.levels {t u : Term} (h : DarkBright t u) {code : ℤ}
    (hcode : LevelsForeground code) :
    SameColors (ansiSgrApply t code) (ansiSgrApply u code) := by
  have hbright : ¬u.ansiFg < 8 := by
    rw [h.bright]
    exact UInt8.not_lt.mpr (eight_le_add h.dark)
  have hdark : ¬8 ≤ t.ansiFg := UInt8.not_le.mpr h.dark
  refine ⟨?_, ansiSgrApply_background h.background code⟩
  rcases hcode with rfl | rfl | rfl | hrange | hrange | rfl
  · rfl
  · -- the dark one becomes bright
    show (if t.ansiFg < 8 then { t with ansiFg := t.ansiFg + 8 } else t).ansiFg =
      (if u.ansiFg < 8 then { u with ansiFg := u.ansiFg + 8 } else u).ansiFg
    rw [if_pos h.dark, if_neg hbright]
    exact h.bright.symm
  · -- the bright one becomes dark
    show (if 8 ≤ t.ansiFg then { t with ansiFg := t.ansiFg - 8 } else t).ansiFg =
      (if 8 ≤ u.ansiFg then { u with ansiFg := u.ansiFg - 8 } else u).ansiFg
    rw [if_neg hdark, if_pos (UInt8.not_lt.mp hbright)]
    show t.ansiFg = u.ansiFg - 8
    rw [h.bright]
    exact (UInt8.add_sub_cancel _ _).symm
  · rw [ansiSgrApply_color hrange, ansiSgrApply_color hrange]
  · rw [ansiSgrApply, ansiSgrApply]
    rw [if_neg (by omega), if_neg (by omega), if_neg (by omega), if_neg (by omega), if_pos hrange]
    rw [if_neg (by omega), if_neg (by omega), if_neg (by omega), if_neg (by omega), if_pos hrange]
  · rfl

/-! ## A list of codes -/

theorem SameColors.applyAll {t u : Term} (h : SameColors t u) (codes : List ℤ) :
    SameColors (codes.foldl ansiSgrApply t) (codes.foldl ansiSgrApply u) := by
  induction codes generalizing t u with
  | nil => exact h
  | cons code codes ih => exact ih (h.apply code)

/-- **A dark foreground and its bright one become equal exactly at the first code that levels
them.** -/
theorem DarkBright.applyAll_iff {t u : Term} (h : DarkBright t u) (codes : List ℤ) :
    SameColors (codes.foldl ansiSgrApply t) (codes.foldl ansiSgrApply u) ↔
      ∃ code ∈ codes, LevelsForeground code := by
  induction codes generalizing t u with
  | nil => exact ⟨fun hsame => absurd hsame h.ne, fun ⟨_, hmem, _⟩ => absurd hmem List.not_mem_nil⟩
  | cons code codes ih =>
    by_cases hcode : LevelsForeground code
    · exact ⟨fun _ => ⟨code, List.mem_cons_self, hcode⟩, fun _ => (h.levels hcode).applyAll codes⟩
    · rw [List.foldl_cons, List.foldl_cons, ih (h.other hcode)]
      simp [hcode]

/-- A colour behind the bold, and in front of it. -/
theorem darkBright_pair {t u : Term} (h : SameColors t u) {color : ℤ}
    (hcolor : 30 ≤ color ∧ color ≤ 37) :
    DarkBright ([1, color].foldl ansiSgrApply t) ([color, 1].foldl ansiSgrApply u) := by
  have hdark := ansiColorToVga_dark (UInt8.ofNat (color - 30).toNat)
  have hbold : ∀ t : Term, (ansiSgrApply t 1).ansiBg = t.ansiBg := by
    intro t
    show (if t.ansiFg < 8 then { t with ansiFg := t.ansiFg + 8 } else t).ansiBg = _
    split <;> rfl
  show DarkBright (ansiSgrApply (ansiSgrApply t 1) color) (ansiSgrApply (ansiSgrApply u color) 1)
  rw [ansiSgrApply_color hcolor, ansiSgrApply_color hcolor]
  refine ⟨hdark, ?_, ?_⟩
  · exact congrArg Term.ansiFg (if_pos hdark)
  · refine (hbold t).trans (h.background.trans ?_)
    rw [hbold]

/-- `ESC [ ... m` with these codes. It begins where the parameters have been read, as the final
byte does. -/
def executeSgr (c : Console) (codes : List ℤ) : Console :=
  ansiExecuteCsi (c.update fun t => { t with ansiParams := codes }) 0x6D

theorem executeSgr_toTerm (c : Console) {codes : List ℤ} (hcodes : codes ≠ []) :
    (executeSgr c codes).toTerm =
      codes.foldl ansiSgrApply { c.toTerm with ansiParams := codes } := by
  let u := c.update fun t => { t with ansiParams := codes }
  have hparams : ¬u.ansiParams = [] := hcodes
  show (ansiExecuteCsi u 0x6D).toTerm = _
  rw [ansiExecuteCsi, if_pos rfl, if_neg hparams]
  rfl

/-- **Bold in front of a colour is the same as behind it exactly when a later code levels the
foreground.** All other codes leave the foreground as it is, so a difference stays. -/
theorem boldOrder_iff (c : Console) (before after : List ℤ) (color : ℤ)
    (hcolor : 30 ≤ color ∧ color ≤ 37) :
    SameColors (executeSgr c (before ++ [1, color] ++ after)).toTerm
        (executeSgr c (before ++ [color, 1] ++ after)).toTerm ↔
      ∃ code ∈ after, LevelsForeground code := by
  rw [executeSgr_toTerm c (by simp), executeSgr_toTerm c (by simp)]
  rw [List.foldl_append, List.foldl_append, List.foldl_append, List.foldl_append]
  refine (darkBright_pair (SameColors.applyAll ?_ before) hcolor).applyAll_iff after
  exact ⟨rfl, rfl⟩

theorem boldOrder_iff_reset :
    SameColors (executeSgr (idleConsole vgaText) ([] ++ [1, 32] ++ [0])).toTerm
      (executeSgr (idleConsole vgaText) ([] ++ [32, 1] ++ [0])).toTerm :=
  (boldOrder_iff (idleConsole vgaText) [] [0] 32 (by decide)).mpr
    ⟨0, List.mem_singleton_self 0, Or.inl rfl⟩

/-- The colour of the prompt: `[1, 32]` is dark green, and `[32, 1]` is bright. -/
theorem promptColor_dark :
    (executeSgr (idleConsole vgaText) [1, 32]).ansiFg = 2 ∧
      (executeSgr (idleConsole vgaText) [32, 1]).ansiFg = 10 ∧
      ¬SameColors (executeSgr (idleConsole vgaText) [1, 32]).toTerm
        (executeSgr (idleConsole vgaText) [32, 1]).toTerm := by
  refine ⟨by decide, by decide, fun h => ?_⟩
  exact absurd h.foreground (by decide)

end WaluOs
