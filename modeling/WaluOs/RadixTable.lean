import Mathlib.Data.List.Basic
import Mathlib.Logic.Function.Basic

/-!
# Radix tables in memory

A tree of tables as hardware page walks read it: a table is a frame of 4 KiB
with 512 eight-byte words, the word at an index may link the table below, and a
walk follows one index per level from a root frame. What a word is, and which
words link what, are parameters.

Nodes are named by the indices that lead to them, last index first. `TablesOk`
is what keeps the levels apart: no frame serves as two nodes. Under it a write
into one table cannot be seen from any other, and the two updates such code
makes have exact descriptions: linking a fresh frame adds one node and no other
(`nodeAddr_attach`), and a write into a table of the last level changes one word
and no node (`nodeAddr_setLeaf`, `leafWord_setLeaf`).
-/

namespace RadixTable

universe u

variable {W : Type u} (link : W → Option ℕ)

/-- The address of a word of a table. -/
def slot (table index : ℕ) : ℕ := table + 8 * index

/-- The address of the table at a path, if the words on the way link it. -/
def nodeAddr (mem : ℕ → W) (root : ℕ) : List ℕ → Option ℕ
  | [] => some root
  | index :: path =>
    match nodeAddr mem root path with
    | none => none
    | some table => link (mem (slot table index))

/-- A path of table indices, at most `depth` levels below the root. The last index is the head of
the list, so that a step down is a `cons`. -/
structure ValidPath (depth : ℕ) (path : List ℕ) : Prop where
  /-- not below the last level of tables -/
  length : path.length ≤ depth
  /-- each index addresses a word -/
  index : ∀ index ∈ path, index < 512

theorem ValidPath.tail {depth index : ℕ} {path : List ℕ} (h : ValidPath depth (index :: path)) :
    ValidPath depth path :=
  ⟨Nat.le_of_succ_le h.length, fun i hi => h.index i (List.mem_cons_of_mem _ hi)⟩

theorem ValidPath.head {depth index : ℕ} {path : List ℕ} (h : ValidPath depth (index :: path)) :
    index < 512 :=
  h.index index (List.mem_cons_self ..)

/-- The tree is well formed: its frames satisfy `Frame`, its link words satisfy `Word`, and no
frame is two nodes. The last part makes a store to one table visible below that table only. -/
structure TablesOk (mem : ℕ → W) (root depth : ℕ) (Frame : ℕ → Prop) (Word : W → Prop) : Prop where
  /-- tables are frames -/
  aligned : ∀ path table, ValidPath depth path → nodeAddr link mem root path = some table →
    table % 4096 = 0
  /-- of this kind -/
  frame : ∀ path table, ValidPath depth path → nodeAddr link mem root path = some table →
    Frame table
  /-- words that may link are of this kind -/
  word : ∀ index path table, ValidPath depth (index :: path) →
    nodeAddr link mem root path = some table → Word (mem (slot table index))
  /-- one node per frame -/
  inj : ∀ path path' table, ValidPath depth path → ValidPath depth path' →
    nodeAddr link mem root path = some table → nodeAddr link mem root path' = some table →
    path = path'

/-- A word of a last-level table. -/
def leafWord (mem : ℕ → W) (root : ℕ) (path : List ℕ) (index : ℕ) : Option W :=
  match nodeAddr link mem root path with
  | none => none
  | some table => some (mem (slot table index))

/-- Fill a frame with one word. -/
def fill (mem : ℕ → W) (frame : ℕ) (w : W) : ℕ → W :=
  fun addr => if frame ≤ addr ∧ addr < frame + 4096 then w else mem addr

/-- Fill a fresh frame with `empty` and link it from a slot. -/
def attach (mem : ℕ → W) (frame : ℕ) (empty : W) (table index : ℕ) (w : W) : ℕ → W :=
  Function.update (fill mem frame empty) (slot table index) w

/-- Write a word of a table. -/
def setLeaf (mem : ℕ → W) (table index : ℕ) (w : W) : ℕ → W :=
  Function.update mem (slot table index) w

/-! ## Words of different tables -/

theorem slot_inj {t t' i i' : ℕ} (ht : t % 4096 = 0) (ht' : t' % 4096 = 0) (hi : i < 512)
    (hi' : i' < 512) (h : slot t i = slot t' i') : t = t' ∧ i = i' := by
  simp only [slot] at h
  omega

theorem fill_slot_ne {t f i : ℕ} (ht : t % 4096 = 0) (hf : f % 4096 = 0) (hi : i < 512)
    (hne : t ≠ f) (mem : ℕ → W) (w : W) : fill mem f w (slot t i) = mem (slot t i) := by
  rw [fill, if_neg]
  simp only [slot]
  omega

theorem fill_slot_self {f i : ℕ} (hi : i < 512) (mem : ℕ → W) (w : W) :
    fill mem f w (slot f i) = w := by
  rw [fill, if_pos]
  simp only [slot]
  omega

variable {link}

theorem nodeAddr_cons {mem : ℕ → W} {root : ℕ} {path : List ℕ} {table : ℕ}
    (h : nodeAddr link mem root path = some table) (index : ℕ) :
    nodeAddr link mem root (index :: path) = link (mem (slot table index)) := by
  rw [nodeAddr, h]

theorem nodeAddr_cons_none {mem : ℕ → W} {root : ℕ} {path : List ℕ}
    (h : nodeAddr link mem root path = none) (index : ℕ) :
    nodeAddr link mem root (index :: path) = none := by
  rw [nodeAddr, h]

section

variable {mem : ℕ → W} {root depth : ℕ} {Frame : ℕ → Prop} {Word : W → Prop}

/-- A frame that is no node of the tree. -/
def Fresh (link : W → Option ℕ) (mem : ℕ → W) (root depth f : ℕ) : Prop :=
  f % 4096 = 0 ∧ ∀ path, ValidPath depth path → nodeAddr link mem root path ≠ some f

/-! ## Linking a fresh frame -/

section

variable {index table f : ℕ} {path : List ℕ} {empty w : W}

/-- A slot belongs to one table and one index. -/
theorem TablesOk.slot_eq_iff (h : TablesOk link mem root depth Frame Word) {table : ℕ}
    (hpath : ValidPath depth path) (hi : index < 512)
    (htable : nodeAddr link mem root path = some table) {path' : List ℕ} {table' index' : ℕ}
    (hpath' : ValidPath depth path') (hi' : index' < 512)
    (htable' : nodeAddr link mem root path' = some table') :
    slot table' index' = slot table index ↔ path' = path ∧ index' = index := by
  constructor
  · intro hsame
    obtain ⟨rfl, rfl⟩ := slot_inj (h.aligned path' table' hpath' htable')
      (h.aligned path table hpath htable) hi' hi hsame
    exact ⟨h.inj path' path table' hpath' hpath htable' htable, rfl⟩
  · rintro ⟨rfl, rfl⟩
    rw [Option.some.inj (htable'.symm.trans htable)]

/-- What a walk reads in an old table after the update: the new link in its
slot, and what was there everywhere else. -/
theorem attach_slot (h : TablesOk link mem root depth Frame Word)
    (hf : Fresh link mem root depth f) (hpath : ValidPath depth (index :: path))
    (htable : nodeAddr link mem root path = some table) {path' : List ℕ} {table' index' : ℕ}
    (hpath' : ValidPath depth path') (hi' : index' < 512)
    (htable' : nodeAddr link mem root path' = some table') :
    attach mem f empty table index w (slot table' index') =
      if path' = path ∧ index' = index then w else mem (slot table' index') := by
  have hsame := h.slot_eq_iff hpath.tail hpath.head htable hpath' hi' htable'
  split
  · rename_i hslot
    rw [hsame.mpr hslot, attach, Function.update_self]
  · rename_i hother
    rw [attach, Function.update_of_ne (mt hsame.mp hother), fill_slot_ne
      (h.aligned path' table' hpath' htable') hf.1 hi' fun he => hf.2 path' hpath' (he ▸ htable')]

/-- The new frame holds only the empty word. -/
theorem attach_slot_new (h : TablesOk link mem root depth Frame Word)
    (hf : Fresh link mem root depth f) (hpath : ValidPath depth (index :: path))
    (htable : nodeAddr link mem root path = some table) {index' : ℕ} (hi' : index' < 512) :
    attach mem f empty table index w (slot f index') = empty := by
  have ha := h.aligned path table hpath.tail htable
  rw [attach, Function.update_of_ne, fill_slot_self hi']
  intro hsame
  obtain ⟨rfl, -⟩ := slot_inj hf.1 ha hi' hpath.head hsame
  exact hf.2 path hpath.tail htable

/-- Linking a fresh frame at an empty slot adds that node and no other. -/
theorem nodeAddr_attach (h : TablesOk link mem root depth Frame Word)
    (hf : Fresh link mem root depth f) (hpath : ValidPath depth (index :: path))
    (htable : nodeAddr link mem root path = some table)
    (hslot : link (mem (slot table index)) = none) (hempty : link empty = none)
    (hw : link w = some f) {q : List ℕ} (hq : ValidPath depth q) :
    nodeAddr link (attach mem f empty table index w) root q =
      if q = index :: path then some f else nodeAddr link mem root q := by
  induction q with
  | nil =>
    rw [if_neg (List.cons_ne_nil _ _).symm]
    rfl
  | cons i q ih =>
    have ih := ih hq.tail
    by_cases hnew : q = index :: path
    · -- below the new table there is nothing, before and after
      subst hnew
      have hold : nodeAddr link mem root (index :: path) = none := by
        rw [nodeAddr_cons htable, hslot]
      rw [if_pos rfl] at ih
      rw [nodeAddr_cons ih, attach_slot_new h hf hpath htable hq.head, hempty,
        nodeAddr_cons_none hold, if_neg]
      exact fun he => List.cons_ne_self _ _ (List.cons.inj he).2
    · rw [if_neg hnew] at ih
      cases hnode : nodeAddr link mem root q with
      | none =>
        rw [nodeAddr_cons_none (ih.trans hnode), nodeAddr_cons_none hnode, if_neg]
        intro he
        rw [(List.cons.inj he).2, htable] at hnode
        cases hnode
      | some t =>
        rw [nodeAddr_cons (ih.trans hnode), nodeAddr_cons hnode,
          attach_slot h hf hpath htable hq.tail hq.head hnode]
        by_cases hsame : q = path ∧ i = index
        · rw [if_pos hsame, hw, if_pos (by rw [hsame.1, hsame.2])]
        · rw [if_neg hsame, if_neg]
          exact fun he => hsame ⟨(List.cons.inj he).2, (List.cons.inj he).1⟩

/-- The tree stays well formed when a fresh, empty table is hung into a free slot. Old paths lead
where they led, and the new ones go through the slot. -/
theorem TablesOk.attach {Frame' : ℕ → Prop} (h : TablesOk link mem root depth Frame Word)
    (hf : Fresh link mem root depth f) (hpath : ValidPath depth (index :: path))
    (htable : nodeAddr link mem root path = some table)
    (hslot : link (mem (slot table index)) = none) (hempty : link empty = none)
    (hw : link w = some f) (hframe : ∀ t, Frame t → Frame' t) (hframef : Frame' f)
    (hwordEmpty : Word empty) (hwordw : Word w) :
    TablesOk link (attach mem f empty table index w) root depth Frame' Word := by
  have hnode := fun {q} (hq : ValidPath depth q) =>
    nodeAddr_attach h hf hpath htable hslot hempty hw hq
  refine ⟨fun q t hq ht => ?_, fun q t hq ht => ?_, fun i q t hq ht => ?_,
    fun q q' t hq hq' ht ht' => ?_⟩
  · rw [hnode hq] at ht
    split_ifs at ht
    · obtain rfl := Option.some.inj ht
      exact hf.1
    · exact h.aligned q t hq ht
  · rw [hnode hq] at ht
    split_ifs at ht
    · obtain rfl := Option.some.inj ht
      exact hframef
    · exact hframe t (h.frame q t hq ht)
  · rw [hnode hq.tail] at ht
    split_ifs at ht
    · obtain rfl := Option.some.inj ht
      rw [attach_slot_new h hf hpath htable hq.head]
      exact hwordEmpty
    · rw [attach_slot h hf hpath htable hq.tail hq.head ht]
      split_ifs
      · exact hwordw
      · exact h.word i q t hq ht
  · rw [hnode hq] at ht
    rw [hnode hq'] at ht'
    split_ifs at ht ht' with h₁ h₂ h₂
    · rw [h₁, h₂]
    · exact absurd (ht'.trans ht.symm) (Option.some.inj ht ▸ hf.2 q' hq')
    · exact absurd (ht.trans ht'.symm) (Option.some.inj ht' ▸ hf.2 q hq)
    · exact h.inj q q' t hq hq' ht ht'

/-- What the last level holds: the new table, if it is of that level, is empty. -/
theorem leafWord_attach (h : TablesOk link mem root depth Frame Word)
    (hf : Fresh link mem root depth f) (hpath : ValidPath depth (index :: path))
    (htable : nodeAddr link mem root path = some table)
    (hslot : link (mem (slot table index)) = none) (hempty : link empty = none)
    (hw : link w = some f) {q : List ℕ} (hq : ValidPath depth q) (hlen : q.length = depth)
    {k : ℕ} (hk : k < 512) :
    leafWord link (RadixTable.attach mem f empty table index w) root q k =
      if q = index :: path then some empty else leafWord link mem root q k := by
  rw [leafWord, nodeAddr_attach h hf hpath htable hslot hempty hw hq]
  by_cases hnew : q = index :: path
  · rw [if_pos hnew, if_pos hnew]
    exact congrArg some (attach_slot_new h hf hpath htable hk)
  · rw [if_neg hnew, if_neg hnew, leafWord]
    cases hnode : nodeAddr link mem root q with
    | none => rfl
    | some t =>
      dsimp only
      rw [attach_slot h hf hpath htable hq hk hnode, if_neg]
      -- the parent is one level above the tables of the last level
      rintro ⟨rfl, -⟩
      have := hpath.length
      rw [List.length_cons] at this
      omega

end

/-! ## Writing a last-level word -/

section

variable {table index : ℕ} {path : List ℕ} {w : W}

theorem setLeaf_slot (h : TablesOk link mem root depth Frame Word) (hpath : ValidPath depth path)
    (hi : index < 512) (htable : nodeAddr link mem root path = some table) {path' : List ℕ}
    {table' index' : ℕ} (hpath' : ValidPath depth path') (hi' : index' < 512)
    (htable' : nodeAddr link mem root path' = some table') :
    setLeaf mem table index w (slot table' index') =
      if path' = path ∧ index' = index then w else mem (slot table' index') := by
  have hsame := h.slot_eq_iff hpath hi htable hpath' hi' htable'
  split
  · rename_i hslot
    rw [hsame.mpr hslot, setLeaf, Function.update_self]
  · rename_i hother
    rw [setLeaf, Function.update_of_ne (mt hsame.mp hother)]

/-- A write into a table of the last level changes no node. -/
theorem nodeAddr_setLeaf (h : TablesOk link mem root depth Frame Word)
    (hpath : ValidPath depth path) (hlen : path.length = depth) (hi : index < 512)
    (htable : nodeAddr link mem root path = some table) {q : List ℕ} (hq : ValidPath depth q) :
    nodeAddr link (setLeaf mem table index w) root q = nodeAddr link mem root q := by
  induction q with
  | nil => rfl
  | cons i q ih =>
    have ih := ih hq.tail
    cases hnode : nodeAddr link mem root q with
    | none => rw [nodeAddr_cons_none (ih.trans hnode), nodeAddr_cons_none hnode]
    | some t =>
      rw [nodeAddr_cons (ih.trans hnode), nodeAddr_cons hnode,
        setLeaf_slot h hpath hi htable hq.tail hq.head hnode, if_neg]
      rintro ⟨rfl, -⟩
      have := hq.length
      rw [List.length_cons] at this
      omega

theorem TablesOk.setLeaf (h : TablesOk link mem root depth Frame Word)
    (hpath : ValidPath depth path) (hlen : path.length = depth) (hi : index < 512)
    (htable : nodeAddr link mem root path = some table) :
    TablesOk link (setLeaf mem table index w) root depth Frame Word := by
  have hnode := fun {q} (hq : ValidPath depth q) => nodeAddr_setLeaf (w := w) h hpath hlen hi htable hq
  refine ⟨fun q t hq ht => h.aligned q t hq (hnode hq ▸ ht),
    fun q t hq ht => h.frame q t hq (hnode hq ▸ ht), fun i q t hq ht => ?_,
    fun q q' t hq hq' ht ht' => h.inj q q' t hq hq' (hnode hq ▸ ht) (hnode hq' ▸ ht')⟩
  rw [hnode hq.tail] at ht
  rw [setLeaf_slot h hpath hi htable hq.tail hq.head ht, if_neg]
  · exact h.word i q t hq ht
  · rintro ⟨rfl, -⟩
    have := hq.length
    rw [List.length_cons] at this
    omega

/-- It changes exactly the word written. -/
theorem leafWord_setLeaf (h : TablesOk link mem root depth Frame Word)
    (hpath : ValidPath depth path) (hlen : path.length = depth) (hi : index < 512)
    (htable : nodeAddr link mem root path = some table) {q : List ℕ} (hq : ValidPath depth q)
    {k : ℕ} (hk : k < 512) :
    leafWord link (RadixTable.setLeaf mem table index w) root q k =
      if q = path ∧ k = index then some w else leafWord link mem root q k := by
  rw [leafWord, nodeAddr_setLeaf h hpath hlen hi htable hq, leafWord]
  cases hnode : nodeAddr link mem root q with
  | none =>
    rw [if_neg]
    rintro ⟨rfl, -⟩
    rw [htable] at hnode
    cases hnode
  | some t =>
    dsimp only
    rw [setLeaf_slot h hpath hi htable hq hk hnode]
    split_ifs <;> rfl

end

/-! ## The frames of the tree -/

/-- The frame is a node. -/
def IsNode (link : W → Option ℕ) (mem : ℕ → W) (root depth t : ℕ) : Prop :=
  ∃ path, ValidPath depth path ∧ nodeAddr link mem root path = some t

section

variable {mem' : ℕ → W} {t : ℕ} {q : List ℕ}

/-- Linking a fresh frame adds that frame. -/
theorem isNode_attach_iff (h : TablesOk link mem root depth Frame Word) {f table index : ℕ}
    {path : List ℕ} {empty w : W} (hf : Fresh link mem root depth f)
    (hpath : ValidPath depth (index :: path)) (htable : nodeAddr link mem root path = some table)
    (hslot : link (mem (slot table index)) = none) (hempty : link empty = none)
    (hw : link w = some f) :
    IsNode link (attach mem f empty table index w) root depth t ↔
      IsNode link mem root depth t ∨ t = f := by
  have hnode := fun {q} (hq : ValidPath depth q) =>
    nodeAddr_attach h hf hpath htable hslot hempty hw hq
  constructor
  · rintro ⟨q, hq, ht⟩
    rw [hnode hq] at ht
    split_ifs at ht
    · exact Or.inr (Option.some.inj ht).symm
    · exact Or.inl ⟨q, hq, ht⟩
  · rintro (⟨q, hq, ht⟩ | rfl)
    · refine ⟨q, hq, ?_⟩
      rw [hnode hq, if_neg, ht]
      rintro rfl
      rw [nodeAddr_cons htable, hslot] at ht
      cases ht
    · exact ⟨index :: path, hpath, by rw [hnode hpath, if_pos rfl]⟩

/-- A write into a table of the last level changes nothing about that. -/
theorem isNode_setLeaf_iff (h : TablesOk link mem root depth Frame Word) {table index : ℕ}
    {path : List ℕ} {w : W} (hpath : ValidPath depth path) (hlen : path.length = depth)
    (hi : index < 512) (htable : nodeAddr link mem root path = some table) :
    IsNode link (setLeaf mem table index w) root depth t ↔ IsNode link mem root depth t :=
  exists_congr fun _ => and_congr_right fun hq => by
    rw [nodeAddr_setLeaf h hpath hlen hi htable hq]

/-- The two memories have the same words in the tables of the first. -/
def SameTables (link : W → Option ℕ) (mem mem' : ℕ → W) (root depth : ℕ) : Prop :=
  ∀ t, IsNode link mem root depth t → ∀ i < 512, mem' (slot t i) = mem (slot t i)

/-- Then they have the same nodes. -/
theorem SameTables.nodeAddr (h : SameTables link mem mem' root depth) (hq : ValidPath depth q) :
    nodeAddr link mem' root q = nodeAddr link mem root q := by
  induction q with
  | nil => rfl
  | cons i q ih =>
    have ih := ih hq.tail
    cases hnode : RadixTable.nodeAddr link mem root q with
    | none => rw [nodeAddr_cons_none (ih.trans hnode), nodeAddr_cons_none hnode]
    | some t =>
      rw [nodeAddr_cons (ih.trans hnode), nodeAddr_cons hnode, h t ⟨q, hq.tail, hnode⟩ i hq.head]

theorem SameTables.isNode_iff (h : SameTables link mem mem' root depth) :
    IsNode link mem' root depth t ↔ IsNode link mem root depth t :=
  exists_congr fun _ => and_congr_right fun hq => by rw [h.nodeAddr hq]

theorem SameTables.leafWord (h : SameTables link mem mem' root depth) (hq : ValidPath depth q)
    {k : ℕ} (hk : k < 512) : leafWord link mem' root q k = leafWord link mem root q k := by
  rw [RadixTable.leafWord, h.nodeAddr hq, RadixTable.leafWord]
  cases hnode : RadixTable.nodeAddr link mem root q with
  | none => rfl
  | some t => exact congrArg some (h t ⟨q, hq, hnode⟩ k hk)

/-- The tree stays well formed, also for other kinds of frames if its own are of them. -/
theorem TablesOk.congr {Frame' : ℕ → Prop} (h : TablesOk link mem root depth Frame Word)
    (hsame : SameTables link mem mem' root depth)
    (hframe : ∀ t, IsNode link mem root depth t → Frame' t) :
    TablesOk link mem' root depth Frame' Word := by
  refine ⟨fun q t hq ht => ?_, fun q t hq ht => ?_, fun i q t hq ht => ?_,
    fun q q' t hq hq' ht ht' => ?_⟩
  · exact h.aligned q t hq (hsame.nodeAddr hq ▸ ht)
  · exact hframe t ⟨q, hq, hsame.nodeAddr hq ▸ ht⟩
  · rw [hsame.nodeAddr hq.tail] at ht
    rw [hsame t ⟨q, hq.tail, ht⟩ i hq.head]
    exact h.word i q t hq ht
  · exact h.inj q q' t hq hq' (hsame.nodeAddr hq ▸ ht) (hsame.nodeAddr hq' ▸ ht')

end

end

end RadixTable
