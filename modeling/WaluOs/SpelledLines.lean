import Mathlib.Data.List.Induction
import WaluOs.EditedLines
import WaluOs.Prefixes

/-!
# A line of keys, and the line of what the keys are spelled with

Each key is sent as one or more smaller keys (`spell`), and an erase key as one. Whoever edits
the smaller keys takes back one of them where the typist takes back a whole key.

The two lines agree again when all that was sent has been taken back, and else exactly as long
as no erase key takes back one of several (`editLine_flatMap_iff`).
-/

namespace EditedLines

universe u v

variable {α : Type u} {β : Type v}

/-! ## One key more -/

theorem editLine_concat (kind : α → KeyKind) (keys : List α) (key : α) :
    editLine kind (keys ++ [key]) = press kind (editLine kind keys) key := List.foldl_concat ..

theorem editLine_append {kind : α → KeyKind} {p : List α} (h : editLine kind p = [])
    (q : List α) : editLine kind (p ++ q) = editLine kind q := by
  rw [editLine, List.foldl_append, ← editLine, h]
  rfl

theorem press_erase {kind : α → KeyKind} {key : α} (h : kind key = .erase) (line : List α) :
    press kind line key = line.dropLast := by
  rw [press, h]

theorem press_other {kind : α → KeyKind} {key : α} (h : kind key ≠ .erase) (line : List α) :
    press kind line key = line ++ [key] := by
  rw [press]
  split
  · contradiction
  · rfl

/-- What is left is a key that was pressed, and no erase key. -/
theorem of_mem_editLine {kind : α → KeyKind} {keys : List α} :
    ∀ key ∈ editLine kind keys, key ∈ keys ∧ kind key ≠ .erase := by
  induction keys using List.reverseRecOn with
  | nil => exact fun _ h => absurd h List.not_mem_nil
  | append_singleton keys key ih =>
    have hbefore : ∀ k ∈ editLine kind keys, k ∈ keys ++ [key] ∧ kind k ≠ .erase :=
      fun k h => ⟨List.mem_append_left _ (ih k h).1, (ih k h).2⟩
    rw [editLine_concat]
    by_cases hk : kind key = .erase
    · rw [press_erase hk]
      exact fun k h => hbefore k (List.mem_of_mem_dropLast h)
    · rw [press_other hk]
      intro k h
      rcases List.mem_append.mp h with h | h
      · exact hbefore k h
      · rw [List.mem_singleton.mp h]
        exact ⟨List.mem_append_right _ (List.mem_singleton_self key), hk⟩

/-- A number of keys that erase nothing. -/
theorem foldl_press_other {kind : α → KeyKind} {keys : List α} (h : ∀ k ∈ keys, kind k ≠ .erase) :
    ∀ line, keys.foldl (press kind) line = line ++ keys := by
  induction keys with
  | nil => exact fun line => (List.append_nil line).symm
  | cons key keys ih =>
    intro line
    obtain ⟨hkey, hkeys⟩ := List.forall_mem_cons.mp h
    rw [List.foldl_cons, press_other hkey, ih hkeys, List.append_assoc, List.singleton_append]

/-! ## Spelling -/

/-- How keys are sent: each by several keys of another alphabet. The erase keys are the same in
both, and whatever is no erase key is sent without one, so the two lines can differ only by how
much one erase takes back. -/
structure Spells (kind : α → KeyKind) (kind' : β → KeyKind) (spell : α → List β) : Prop where
  /-- a key, by at least one -/
  nonempty : ∀ key, kind key ≠ .erase → spell key ≠ []
  /-- that erase nothing -/
  other : ∀ key, kind key ≠ .erase → ∀ b ∈ spell key, kind' b ≠ .erase
  /-- an erase key, by one -/
  erase : ∀ key, kind key = .erase → ∃ b, spell key = [b] ∧ kind' b = .erase

/-- How much was sent of keys that are no erase keys. -/
def sent (kind : α → KeyKind) (spell : α → List β) (keys : List α) : ℕ :=
  ((keys.filter fun key => kind key ≠ .erase).flatMap spell).length

/-- How many erase keys there are. -/
def erases (kind : α → KeyKind) (keys : List α) : ℕ := keys.countP fun key => kind key = .erase

/-- All that was sent has been taken back: from no point on was more sent than erased. -/
def TakenBack (kind : α → KeyKind) (spell : α → List β) (keys : List α) : Prop :=
  ∀ t, t <:+ keys → sent kind spell t ≤ erases kind t

/-- No erase key finds a key that was sent as several. -/
def ErasesSingles (kind : α → KeyKind) (spell : α → List β) (keys : List α) : Prop :=
  ∀ p key, p ++ [key] <+: keys → kind key = .erase →
    ∀ a, (editLine kind p).getLast? = some a → (spell a).length = 1

/-- The keys are sent in two parts: of the first all is taken back, and in the second no erase key
finds a key that was sent as several. It is the exact condition for the two lines to agree, since
an erase that leaves a part of a key behind is made good only if the line is emptied later. -/
def ErasesWhole (kind : α → KeyKind) (spell : α → List β) (keys : List α) : Prop :=
  ∃ p q, keys = p ++ q ∧ TakenBack kind spell p ∧ ErasesSingles kind spell q

section counts

variable {kind : α → KeyKind} (spell : α → List β) {key : α} (t : List α)

theorem sent_concat_erase (hkey : kind key = .erase) :
    sent kind spell (t ++ [key]) = sent kind spell t := by
  simp [sent, hkey]

theorem sent_concat_other (hkey : kind key ≠ .erase) :
    sent kind spell (t ++ [key]) = sent kind spell t + (spell key).length := by
  simp [sent, hkey]

theorem erases_concat_erase (hkey : kind key = .erase) :
    erases kind (t ++ [key]) = erases kind t + 1 := by
  simp [erases, hkey]

theorem erases_concat_other (hkey : kind key ≠ .erase) :
    erases kind (t ++ [key]) = erases kind t := by
  simp [erases, hkey]

/-- One key more. -/
theorem erasesSingles_concat {keys : List α} :
    ErasesSingles kind spell (keys ++ [key]) ↔
      ErasesSingles kind spell keys ∧ (kind key = .erase →
        ∀ a, (editLine kind keys).getLast? = some a → (spell a).length = 1) := by
  constructor
  · exact fun h => ⟨fun p k hp => h p k (hp.trans (List.prefix_append ..)),
      h keys key (List.prefix_refl _)⟩
  · rintro ⟨hbefore, hlast⟩ p k hp
    rcases Prefixes.concat_iff.mp hp with ⟨rfl, rfl⟩ | hp
    · exact hlast
    · exact hbefore p k hp

end counts

section spells

variable {kind : α → KeyKind} {kind' : β → KeyKind} {spell : α → List β}
  (h : Spells kind kind' spell)

include h

/-- A key more, in the line that is spelled. -/
theorem editLine_spelled_other {key : α} (hkey : kind key ≠ .erase) (keys : List α) :
    editLine kind' ((keys ++ [key]).flatMap spell) =
      editLine kind' (keys.flatMap spell) ++ spell key := by
  rw [List.flatMap_append, List.flatMap_singleton, editLine, List.foldl_append, ← editLine,
    foldl_press_other (h.other key hkey)]

/-- An erase key more. -/
theorem editLine_spelled_erase {key : α} (hkey : kind key = .erase) (keys : List α) :
    editLine kind' ((keys ++ [key]).flatMap spell) =
      (editLine kind' (keys.flatMap spell)).dropLast := by
  obtain ⟨b, hspell, hb⟩ := h.erase key hkey
  rw [List.flatMap_append, List.flatMap_singleton, hspell, editLine_concat, press_erase hb]

/-- How much is left of what was sent, by the counts alone. -/
theorem length_editLine_spelled_le_iff (keys : List α) :
    ∀ n, (editLine kind' (keys.flatMap spell)).length ≤ n ↔
      ∀ t, t <:+ keys → sent kind spell t ≤ erases kind t + n := by
  induction keys using List.reverseRecOn with
  | nil =>
    intro n
    refine iff_of_true (Nat.zero_le n) fun t ht => ?_
    rw [List.suffix_nil.mp ht]
    exact Nat.zero_le _
  | append_singleton keys key ih =>
    intro n
    have hsuffix : (∀ t, t <:+ keys ++ [key] → sent kind spell t ≤ erases kind t + n) ↔
        ∀ t, t <:+ keys → sent kind spell (t ++ [key]) ≤ erases kind (t ++ [key]) + n := by
      constructor
      · exact fun hall t ht => hall _ (List.suffix_concat_iff.mpr (Or.inr ⟨t, rfl, ht⟩))
      · intro hall t ht
        rcases List.suffix_concat_iff.mp ht with rfl | ⟨t', rfl, ht'⟩
        · exact Nat.zero_le _
        · exact hall t' ht'
    rw [hsuffix]
    by_cases hkey : kind key = .erase
    · rw [editLine_spelled_erase h hkey, List.length_dropLast, Nat.sub_le_iff_le_add, ih (n + 1)]
      simp only [sent_concat_erase spell _ hkey, erases_concat_erase _ hkey, Nat.add_comm n 1,
        Nat.add_assoc]
    · rw [editLine_spelled_other h hkey, List.length_append]
      simp only [sent_concat_other spell _ hkey, erases_concat_other _ hkey]
      constructor
      · intro hle t ht
        have hbefore := (ih (n - (spell key).length)).mp (by omega) t ht
        omega
      · intro hall
        -- the empty suffix: the key itself is not too long
        have hshort : 0 + (spell key).length ≤ 0 + n := hall [] List.nil_suffix
        have hbefore := (ih (n - (spell key).length)).mpr fun t ht => by
          have hkept := hall t ht
          omega
        omega

/-- **Nothing is left** when all has been taken back. -/
theorem editLine_spelled_eq_nil_iff {keys : List α} :
    editLine kind' (keys.flatMap spell) = [] ↔ TakenBack kind spell keys := by
  rw [← List.length_eq_zero_iff, ← Nat.le_zero, length_editLine_spelled_le_iff h]
  rfl

/-- A line that is not empty has a last key, and it was sent. -/
theorem exists_last {line : List α} (hne : line ≠ []) (hline : ∀ k ∈ line, kind k ≠ .erase) :
    ∃ init a, line = init ++ [a] ∧ 0 < (spell a).length := by
  obtain ⟨init, a, rfl⟩ := (List.eq_nil_or_concat' line).resolve_left hne
  exact ⟨init, a, rfl, List.length_pos_iff.mpr
    (h.nonempty a (hline a (List.mem_append_right _ (List.mem_singleton_self a))))⟩

/-- The line of the keys is the first to be empty. -/
theorem length_editLine_le_spelled (keys : List α) :
    ((editLine kind keys).flatMap spell).length ≤ (editLine kind' (keys.flatMap spell)).length := by
  induction keys using List.reverseRecOn with
  | nil => exact le_rfl
  | append_singleton keys key ih =>
    rw [editLine_concat]
    by_cases hkey : kind key = .erase
    · rw [press_erase hkey, editLine_spelled_erase h hkey, List.length_dropLast]
      rcases eq_or_ne (editLine kind keys) [] with hnil | hne
      · rw [hnil]
        exact Nat.zero_le _
      · obtain ⟨init, a, hlast, hsent⟩ := exists_last h hne fun k hk => (of_mem_editLine k hk).2
        rw [hlast, List.flatMap_append, List.length_append, List.flatMap_singleton] at ih
        rw [hlast, List.dropLast_concat]
        omega
    · rw [press_other hkey, editLine_spelled_other h hkey, List.flatMap_append, List.length_append,
        List.length_append, List.flatMap_singleton]
      exact Nat.add_le_add_right ih _

/-- When all has been taken back, no key is left. -/
theorem editLine_eq_nil {keys : List α} (hback : TakenBack kind spell keys) :
    editLine kind keys = [] := by
  by_contra hne
  obtain ⟨init, a, hlast, hsent⟩ := exists_last h hne fun k hk => (of_mem_editLine k hk).2
  have hle := length_editLine_le_spelled h keys
  rw [(editLine_spelled_eq_nil_iff h).mpr hback, hlast, List.flatMap_append, List.length_append,
    List.flatMap_singleton, List.length_nil] at hle
  omega

/-- While each erase key finds a key that was sent as one, the lines agree. -/
theorem editLine_flatMap_of_singles {keys : List α} (hsingles : ErasesSingles kind spell keys) :
    editLine kind' (keys.flatMap spell) = (editLine kind keys).flatMap spell := by
  induction keys using List.reverseRecOn with
  | nil => rfl
  | append_singleton keys key ih =>
    have hbefore : ErasesSingles kind spell keys :=
      fun p k hp => hsingles p k (hp.trans (List.prefix_append ..))
    rw [editLine_concat]
    by_cases hkey : kind key = .erase
    · rw [press_erase hkey, editLine_spelled_erase h hkey, ih hbefore]
      rcases eq_or_ne (editLine kind keys) [] with hnil | hne
      · rw [hnil]
        rfl
      · obtain ⟨init, a, hlast, -⟩ := exists_last h hne fun k hk => (of_mem_editLine k hk).2
        have hsingle := hsingles keys key (List.prefix_refl _) hkey a
          (by rw [hlast, List.getLast?_concat])
        obtain ⟨b, hb⟩ := List.length_eq_one_iff.mp hsingle
        rw [hlast, List.dropLast_concat, List.flatMap_append, List.flatMap_singleton, hb,
          List.dropLast_concat]
    · rw [press_other hkey, editLine_spelled_other h hkey, ih hbefore, List.flatMap_append,
        List.flatMap_singleton]

/-- Where the keys were sent in two such parts, the lines agree. -/
theorem editLine_flatMap_of_whole {keys : List α} (hwhole : ErasesWhole kind spell keys) :
    editLine kind' (keys.flatMap spell) = (editLine kind keys).flatMap spell := by
  obtain ⟨p, q, rfl, hback, hsingles⟩ := hwhole
  rw [List.flatMap_append, editLine_append ((editLine_spelled_eq_nil_iff h).mpr hback),
    editLine_append (editLine_eq_nil h hback)]
  exact editLine_flatMap_of_singles h hsingles

/-- An erase key, where the lines agreed and no longer do. -/
theorem length_lt_of_breaks {keys : List α} {key : α} (hkey : kind key = .erase)
    (hwhole : ErasesWhole kind spell keys) (hnot : ¬ErasesWhole kind spell (keys ++ [key])) :
    ((editLine kind (keys ++ [key])).flatMap spell).length <
      (editLine kind' ((keys ++ [key]).flatMap spell)).length := by
  have hagree := editLine_flatMap_of_whole h hwhole
  obtain ⟨p, q, rfl, hback, hsingles⟩ := hwhole
  have hq := editLine_append (editLine_eq_nil h hback) q
  have hempty : editLine kind (p ++ q) ≠ [] := by
    intro hnil
    rw [hnil] at hagree
    refine hnot ⟨p ++ q ++ [key], [], (List.append_nil _).symm, ?_, fun _ _ hp =>
      absurd hp Prefixes.not_concat_prefix_nil⟩
    rw [← editLine_spelled_eq_nil_iff h, editLine_spelled_erase h hkey, hagree]
    rfl
  obtain ⟨init, a, hlast, hsent⟩ := exists_last h hempty fun k hk => (of_mem_editLine k hk).2
  have hseveral : (spell a).length ≠ 1 := by
    intro hone
    refine hnot ⟨p, q ++ [key], List.append_assoc .., hback,
      (erasesSingles_concat spell).mpr ⟨hsingles, fun _ b hb => ?_⟩⟩
    rw [← hq, hlast, List.getLast?_concat] at hb
    rw [← Option.some.inj hb]
    exact hone
  rw [editLine_concat, press_erase hkey, editLine_spelled_erase h hkey, hagree, hlast,
    List.dropLast_concat, List.flatMap_append, List.flatMap_singleton, List.length_dropLast,
    List.length_append]
  omega

/-- An erase key, where the lines did not agree before. -/
theorem length_lt_of_broken {keys : List α} {key : α} (hkey : kind key = .erase)
    (hlt : ((editLine kind keys).flatMap spell).length <
      (editLine kind' (keys.flatMap spell)).length)
    (hnot : ¬ErasesWhole kind spell (keys ++ [key])) :
    ((editLine kind (keys ++ [key])).flatMap spell).length <
      (editLine kind' ((keys ++ [key]).flatMap spell)).length := by
  rw [editLine_concat, press_erase hkey]
  rcases eq_or_ne (editLine kind keys) [] with hnil | hne
  · rw [hnil]
    refine List.length_pos_iff.mpr fun hall => hnot ⟨keys ++ [key], [], (List.append_nil _).symm,
      (editLine_spelled_eq_nil_iff h).mp hall, fun _ _ hp =>
        absurd hp Prefixes.not_concat_prefix_nil⟩
  · obtain ⟨init, a, hlast, hsent⟩ := exists_last h hne fun k hk => (of_mem_editLine k hk).2
    rw [hlast, List.flatMap_append, List.length_append, List.flatMap_singleton] at hlt
    rw [editLine_spelled_erase h hkey, hlast, List.dropLast_concat, List.length_dropLast]
    omega

/-- Else more is left than the keys that are left were sent with. -/
theorem length_editLine_lt_spelled {keys : List α} (hnot : ¬ErasesWhole kind spell keys) :
    ((editLine kind keys).flatMap spell).length < (editLine kind' (keys.flatMap spell)).length := by
  induction keys using List.reverseRecOn with
  | nil =>
    refine absurd ⟨[], [], rfl, fun t ht => ?_, fun _ _ hp => ?_⟩ hnot
    · rw [List.suffix_nil.mp ht]
      exact Nat.zero_le _
    · exact absurd hp Prefixes.not_concat_prefix_nil
  | append_singleton keys key ih =>
    by_cases hkey : kind key = .erase
    · by_cases hwhole : ErasesWhole kind spell keys
      · exact length_lt_of_breaks h hkey hwhole hnot
      · exact length_lt_of_broken h hkey (ih hwhole) hnot
    · have hbefore : ¬ErasesWhole kind spell keys := by
        rintro ⟨p, q, rfl, hback, hsingles⟩
        exact hnot ⟨p, q ++ [key], List.append_assoc .., hback,
          (erasesSingles_concat spell).mpr ⟨hsingles, fun hk => absurd hk hkey⟩⟩
      rw [editLine_concat, press_other hkey, editLine_spelled_other h hkey, List.flatMap_append,
        List.length_append, List.length_append, List.flatMap_singleton]
      exact Nat.add_lt_add_right (ih hbefore) _

/-- **The lines agree** exactly when all was taken back at some time, and from then on each erase
key found a key that was sent as one, or none. -/
theorem editLine_flatMap_iff (keys : List α) :
    editLine kind' (keys.flatMap spell) = (editLine kind keys).flatMap spell ↔
      ErasesWhole kind spell keys := by
  refine ⟨fun heq => ?_, editLine_flatMap_of_whole h⟩
  by_contra hnot
  have hlt := length_editLine_lt_spelled h hnot
  rw [heq] at hlt
  exact Nat.lt_irrefl _ hlt

end spells

end EditedLines
