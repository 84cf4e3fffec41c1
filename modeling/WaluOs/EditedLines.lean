import Mathlib.Data.List.Basic
import Mathlib.Data.List.Infix

/-!
# Lines typed with an erase key

A stream of keys is cut into lines by newline keys; inside a line, an erase key
takes back the last key that is still there. `EditedLines` is what has been
typed so far: the lines that are complete and the one that is not.

The file fixes neither the keys nor which of them edit (`kind` says so). Its
laws are about streams: how a state moves along the concatenation of two of
them (so that it does not matter how a stream is cut into pieces), and what any
prefix of a stream of lines has completed.
-/

universe u v

/-- A property of every state a fold goes through, the first one and the last one included. It
says of a run what an invariant says of a state. -/
def FoldAlong {σ : Type u} {α : Type v} (f : σ → α → σ) (P : σ → Prop) (s : σ) (xs : List α) :
    Prop :=
  ∀ p, p <+: xs → P (p.foldl f s)

namespace FoldAlong

variable {σ : Type u} {α : Type v} {f : σ → α → σ} {P : σ → Prop} {s : σ}

theorem start {xs : List α} (h : FoldAlong f P s xs) : P s := h [] List.nil_prefix

theorem finish {xs : List α} (h : FoldAlong f P s xs) : P (xs.foldl f s) :=
  h xs (List.prefix_refl xs)

theorem nil (h : P s) : FoldAlong f P s [] := by
  intro p hp
  rw [List.prefix_nil.mp hp]
  exact h

theorem cons {x : α} {xs : List α} (h : P s) (hxs : FoldAlong f P (f s x) xs) :
    FoldAlong f P s (x :: xs) := by
  intro p hp
  cases p with
  | nil => exact h
  | cons y p =>
    obtain ⟨rfl, htail⟩ := List.cons_prefix_cons.mp hp
    exact hxs p htail

theorem tail {x : α} {xs : List α} (h : FoldAlong f P s (x :: xs)) : FoldAlong f P (f s x) xs :=
  fun p hp => h (x :: p) ((List.prefix_cons_inj x).mpr hp)

theorem restrict {xs ys : List α} (h : FoldAlong f P s ys) (hxs : xs <+: ys) :
    FoldAlong f P s xs :=
  fun p hp => h p (hp.trans hxs)

theorem append {xs ys : List α} (hxs : FoldAlong f P s xs)
    (hys : FoldAlong f P (xs.foldl f s) ys) : FoldAlong f P s (xs ++ ys) := by
  induction xs generalizing s with
  | nil => exact hys
  | cons x xs ih => exact cons hxs.start (ih hxs.tail hys)

theorem right {xs ys : List α} (h : FoldAlong f P s (xs ++ ys)) :
    FoldAlong f P (xs.foldl f s) ys := by
  intro p hp
  rw [← List.foldl_append]
  exact h (xs ++ p) ((List.prefix_append_right_inj xs).mpr hp)

end FoldAlong

/-- What a key does to the line being typed. -/
inductive KeyKind : Type where
  /-- completes it -/
  | newline : KeyKind
  /-- takes back its last key -/
  | erase : KeyKind
  /-- extends it -/
  | data : KeyKind
  deriving DecidableEq, Repr

/-- What has been typed so far, as a person would say it: the lines that were completed, and the
one that is being typed. It is what the buffers of a line editor are compared with. -/
structure EditedLines (α : Type u) : Type u where
  /-- the complete lines, oldest first -/
  done : List (List α)
  /-- the line being typed -/
  pending : List α

namespace EditedLines

variable {α : Type u} (kind : α → KeyKind)

/-! ## Typing -/

/-- A key that does not complete the line. -/
def press (line : List α) (key : α) : List α :=
  match kind key with
  | .erase => line.dropLast
  | _ => line ++ [key]

/-- What is left of a line after its erase keys, each of which takes back the last key that is
left, if there is one. -/
def editLine (keys : List α) : List α := keys.foldl (press kind) []

/-- One key. -/
def feed (t : EditedLines α) (key : α) : EditedLines α :=
  match kind key with
  | .newline => ⟨t.done ++ [t.pending], []⟩
  | _ => ⟨t.done, press kind t.pending key⟩

/-- A stream of keys. -/
def feedAll (t : EditedLines α) (keys : List α) : EditedLines α := keys.foldl (feed kind) t

/-- The stream that types lines, each with its newline. A reader that splits it at the newlines
gets the lines back. -/
def stream (nl : α) (lines : List (List α)) : List α := lines.flatMap (· ++ [nl])

variable {kind}

theorem feed_newline {key : α} (h : kind key = .newline) (t : EditedLines α) :
    feed kind t key = ⟨t.done ++ [t.pending], []⟩ := by
  simp only [feed, h]

theorem feed_erase {key : α} (h : kind key = .erase) (t : EditedLines α) :
    feed kind t key = ⟨t.done, t.pending.dropLast⟩ := by
  simp only [feed, press, h]

theorem feed_data {key : α} (h : kind key = .data) (t : EditedLines α) :
    feed kind t key = ⟨t.done, t.pending ++ [key]⟩ := by
  simp only [feed, press, h]

theorem feed_key {key : α} (h : kind key ≠ .newline) (t : EditedLines α) :
    feed kind t key = ⟨t.done, press kind t.pending key⟩ := by
  rw [feed]
  split
  · contradiction
  · rfl

@[simp] theorem feedAll_nil (t : EditedLines α) : feedAll kind t [] = t := rfl

@[simp] theorem feedAll_cons (t : EditedLines α) (key : α) (keys : List α) :
    feedAll kind t (key :: keys) = feedAll kind (feed kind t key) keys := rfl

theorem feedAll_append (t : EditedLines α) (xs ys : List α) :
    feedAll kind t (xs ++ ys) = feedAll kind (feedAll kind t xs) ys :=
  List.foldl_append

@[simp] theorem stream_nil (nl : α) : stream nl [] = [] := rfl

@[simp] theorem stream_cons (nl : α) (line : List α) (lines : List (List α)) :
    stream nl (line :: lines) = line ++ nl :: stream nl lines := by
  simp [stream]

theorem stream_append (nl : α) (xs ys : List (List α)) :
    stream nl (xs ++ ys) = stream nl xs ++ stream nl ys :=
  List.flatMap_append

/-- Lines completed earlier have no influence. -/
theorem feedAll_done (done : List (List α)) (pending keys : List α) :
    feedAll kind ⟨done, pending⟩ keys =
      ⟨done ++ (feedAll kind ⟨[], pending⟩ keys).done,
        (feedAll kind ⟨[], pending⟩ keys).pending⟩ := by
  induction keys generalizing done pending with
  | nil => simp
  | cons key keys ih =>
    rw [feedAll_cons, feedAll_cons]
    by_cases hk : kind key = .newline
    · rw [feed_newline hk, feed_newline hk, ih (done ++ [pending]), ih ([] ++ [pending])]
      simp
    · rw [feed_key hk, feed_key hk, ih]

/-! ## Whole lines -/

/-- Keys that complete nothing only edit the pending line. -/
theorem feedAll_keys {keys : List α} (h : ∀ key ∈ keys, kind key ≠ .newline) :
    ∀ t : EditedLines α, feedAll kind t keys = ⟨t.done, keys.foldl (press kind) t.pending⟩ := by
  induction keys with
  | nil => exact fun t => rfl
  | cons key keys ih =>
    intro t
    rw [feedAll_cons, feed_key (h key (List.mem_cons_self ..)),
      ih fun k hk => h k (List.mem_cons_of_mem _ hk)]
    rfl

/-- A line and its newline complete what is left of the line. -/
theorem feedAll_line {nl : α} (hnl : kind nl = .newline) {line : List α}
    (h : ∀ key ∈ line, kind key ≠ .newline) (done : List (List α)) :
    feedAll kind ⟨done, []⟩ (line ++ [nl]) = ⟨done ++ [editLine kind line], []⟩ := by
  rw [feedAll_append, feedAll_keys h, feedAll_cons, feed_newline hnl, feedAll_nil, editLine]

/-- A stream of lines completes each of them, in order. -/
theorem feedAll_stream {nl : α} (hnl : kind nl = .newline) {lines : List (List α)}
    (h : ∀ line ∈ lines, ∀ key ∈ line, kind key ≠ .newline) :
    ∀ done : List (List α), feedAll kind ⟨done, []⟩ (stream nl lines) =
      ⟨done ++ lines.map (editLine kind), []⟩ := by
  induction lines with
  | nil => simp
  | cons line lines ih =>
    intro done
    obtain ⟨hline, hlines⟩ := List.forall_mem_cons.mp h
    rw [stream_cons, List.append_cons, feedAll_append, feedAll_line hnl hline, ih hlines,
      List.map_cons, List.append_assoc, List.singleton_append]

/-- A line of data keys is left as it is. -/
theorem editLine_data {keys : List α} (h : ∀ key ∈ keys, kind key = .data) :
    editLine kind keys = keys := by
  suffices ∀ line, keys.foldl (press kind) line = line ++ keys from this []
  induction keys with
  | nil => simp
  | cons key keys ih =>
    intro line
    obtain ⟨hkey, hkeys⟩ := List.forall_mem_cons.mp h
    rw [List.foldl_cons, ih hkeys, press, hkey, List.append_assoc, List.singleton_append]

theorem getD_nil_cases (lines : List (List α)) (n : ℕ) :
    lines.getD n [] = [] ∨ lines.getD n [] ∈ lines := by
  rw [List.getD_eq_getElem?_getD]
  cases hget : lines[n]? with
  | none => exact Or.inl rfl
  | some line => exact Or.inr (List.mem_of_getElem? hget)

theorem forall_mem_getD {P : α → Prop} {lines : List (List α)}
    (h : ∀ line ∈ lines, ∀ key ∈ line, P key) (n : ℕ) : ∀ key ∈ lines.getD n [], P key := by
  rcases getD_nil_cases lines n with hn | hn
  · rw [hn]
    exact fun key hk => absurd hk List.not_mem_nil
  · exact h _ hn

/-- A prefix of a stream of lines is some of the lines and a piece of the next. -/
theorem exists_of_prefix_stream {nl : α} {lines : List (List α)} :
    ∀ {p : List α}, p <+: stream nl lines →
      ∃ n ≤ lines.length, ∃ q, q <+: lines.getD n [] ∧ p = stream nl (lines.take n) ++ q := by
  induction lines with
  | nil =>
    intro p hp
    exact ⟨0, le_rfl, [], List.nil_prefix, by simpa using hp⟩
  | cons line lines ih =>
    intro p hp
    rw [stream_cons, List.append_cons] at hp
    rcases List.prefix_or_prefix_of_prefix hp (List.prefix_append ..) with h | ⟨r, rfl⟩
    · rcases List.prefix_concat_iff.mp h with rfl | h
      · exact ⟨1, by simp, [], List.nil_prefix, by simp⟩
      · exact ⟨0, Nat.zero_le _, p, by simpa using h, rfl⟩
    · obtain ⟨n, hn, q, hq, rfl⟩ := ih ((List.prefix_append_right_inj _).mp hp)
      exact ⟨n + 1, Nat.succ_le_succ hn, q, by simpa using hq, by simp⟩

/-! ## Any part of a stream -/

/-- Every key that is left satisfies `P`. Keys that were typed and erased again do not count. -/
structure AllOf (P : α → Prop) (t : EditedLines α) : Prop where
  /-- in the complete lines -/
  done : ∀ line ∈ t.done, ∀ key ∈ line, P key
  /-- in the pending line -/
  pending : ∀ key ∈ t.pending, P key

theorem AllOf.feed {P : α → Prop} {t : EditedLines α} (h : AllOf P t) {key : α}
    (hkey : kind key = .data → P key) : AllOf P (feed kind t key) := by
  cases hk : kind key with
  | newline =>
    rw [feed_newline hk]
    refine ⟨fun line hl => ?_, by simp⟩
    rcases List.mem_append.mp hl with hl | hl
    · exact h.done line hl
    · rw [List.mem_singleton.mp hl]
      exact h.pending
  | erase =>
    rw [feed_erase hk]
    exact ⟨h.done, fun k hm => h.pending k (List.mem_of_mem_dropLast hm)⟩
  | data =>
    rw [feed_data hk]
    refine ⟨h.done, fun k hm => ?_⟩
    rcases List.mem_append.mp hm with hm | hm
    · exact h.pending k hm
    · rw [List.mem_singleton.mp hm]
      exact hkey hk

theorem AllOf.feedAll {P : α → Prop} {t : EditedLines α} (h : AllOf P t) {keys : List α}
    (hkeys : ∀ key ∈ keys, kind key = .data → P key) : AllOf P (feedAll kind t keys) :=
  List.foldlRecOn keys _ h fun _ ht key hk => ht.feed (hkeys key hk)

/-- A part of a stream of data lines: some of them, and a piece of the next. -/
theorem feedAll_prefix_data {nl : α} (hnl : kind nl = .newline) {lines : List (List α)}
    (h : ∀ line ∈ lines, ∀ key ∈ line, kind key = .data) {p : List α}
    (hp : p <+: stream nl lines) (done : List (List α)) :
    ∃ n q, q <+: lines.getD n [] ∧
      feedAll kind ⟨done, []⟩ p = ⟨done ++ lines.take n, q⟩ := by
  obtain ⟨n, -, q, hq, rfl⟩ := exists_of_prefix_stream hp
  have hne : ∀ key, kind key = .data → kind key ≠ .newline := fun key hk => by simp [hk]
  have htake : ∀ line ∈ lines.take n, ∀ key ∈ line, kind key = .data :=
    fun line hl => h line (List.mem_of_mem_take hl)
  have hq' : ∀ key ∈ q, kind key = .data := fun key hk => forall_mem_getD h n key (hq.mem hk)
  have hedit : (lines.take n).map (editLine kind) = lines.take n := by
    rw [List.map_congr_left fun line hl => editLine_data (htake line hl), List.map_id']
  refine ⟨n, q, hq, ?_⟩
  rw [feedAll_append, feedAll_stream hnl fun line hl key hk => hne key (htake line hl key hk),
    feedAll_keys fun key hk => hne key (hq' key hk), hedit]
  exact congrArg (EditedLines.mk _) (editLine_data hq')

/-- How long the stream is that the typed lines and the pending line make up. -/
def size (nl : α) (t : EditedLines α) : ℕ := (stream nl t.done).length + t.pending.length

variable (kind) in
theorem size_feed_le (nl : α) (t : EditedLines α) (key : α) :
    size nl (feed kind t key) ≤ size nl t + 1 := by
  cases hk : kind key with
  | newline =>
    rw [feed_newline hk]
    simp [size, stream_append]
    omega
  | erase =>
    rw [feed_erase hk]
    simp only [size, List.length_dropLast]
    omega
  | data =>
    rw [feed_data hk]
    simp only [size, List.length_append, List.length_singleton]
    omega

variable (kind) in
theorem size_feedAll_le (nl : α) (keys : List α) :
    ∀ t : EditedLines α, size nl (feedAll kind t keys) ≤ size nl t + keys.length := by
  induction keys with
  | nil => exact fun t => le_rfl
  | cons key keys ih =>
    intro t
    have hfeed := size_feed_le kind nl t key
    have hrest := ih (feed kind t key)
    rw [feedAll_cons, List.length_cons]
    omega

theorem count_keys [DecidableEq α] {nl : α} (hnl : ∀ key, kind key = .newline ↔ key = nl)
    {keys : List α} (h : ∀ key ∈ keys, kind key ≠ .newline) : keys.count nl = 0 :=
  List.count_eq_zero.mpr fun hm => h nl hm ((hnl nl).mpr rfl)

theorem count_stream [DecidableEq α] {nl : α} (hnl : ∀ key, kind key = .newline ↔ key = nl)
    {lines : List (List α)} (h : ∀ line ∈ lines, ∀ key ∈ line, kind key ≠ .newline) :
    (stream nl lines).count nl = lines.length := by
  induction lines with
  | nil => rfl
  | cons line lines ih =>
    obtain ⟨hline, hlines⟩ := List.forall_mem_cons.mp h
    rw [stream_cons, List.count_append, count_keys hnl hline, List.count_cons_self, ih hlines,
      List.length_cons, Nat.zero_add]

/-- What a part of a stream of lines has typed: the lines whose newline it
contains, and the edited piece of the next one. -/
theorem feedAll_prefix [DecidableEq α] {nl : α} (hnl : ∀ key, kind key = .newline ↔ key = nl)
    {lines : List (List α)} (h : ∀ line ∈ lines, ∀ key ∈ line, kind key ≠ .newline)
    {p : List α} (hp : p <+: stream nl lines) :
    ∃ q, q <+: lines.getD (p.count nl) [] ∧ feedAll kind ⟨[], []⟩ p =
      ⟨(lines.take (p.count nl)).map (editLine kind), editLine kind q⟩ := by
  obtain ⟨n, hn, q, hq, rfl⟩ := exists_of_prefix_stream hp
  have hqk : ∀ key ∈ q, kind key ≠ .newline := fun key hk => forall_mem_getD h n key (hq.mem hk)
  have htake : ∀ line ∈ lines.take n, ∀ key ∈ line, kind key ≠ .newline :=
    fun line hl => h line (List.mem_of_mem_take hl)
  have hcount : (stream nl (lines.take n) ++ q).count nl = n := by
    rw [List.count_append, count_stream hnl htake, count_keys hnl hqk, List.length_take]
    omega
  rw [hcount, feedAll_append, feedAll_stream ((hnl nl).mpr rfl) htake, feedAll_keys hqk]
  exact ⟨q, hq, rfl⟩

end EditedLines
