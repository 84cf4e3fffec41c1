import Mathlib.Data.List.DropRight
import Mathlib.Data.Nat.Notation

/-!
# Text in C

A C program handles text as bytes: a string ends at its first NUL, a buffer has a size,
`fgets` cuts what it reads where the buffer is full, and `strtok_r` walks over a string
and leaves out what is empty.

The functions are those of the C library. The laws say what they come to: `fgets_line` for
lines that fit, and `tokens_eq` for `strtok_r`, whose tokens are the words of the string.
-/

namespace CStrings

variable {α : Type*}

/-- The bytes of an ASCII literal, without the NUL that ends it in C. -/
def lit (s : String) : List UInt8 := s.toList.map fun c => UInt8.ofNat c.toNat

/-- The string at the beginning of a buffer, up to the first NUL. What a program has read into a
buffer and what it then takes for its content differ by this. -/
def cstr (bytes : List UInt8) : List UInt8 := bytes.takeWhile fun b => b ≠ 0

/-- What `snprintf(buf, size, "%s", s)` leaves in its buffer. -/
def snprintf (size : ℕ) (s : List UInt8) : List UInt8 := s.take (size - 1)

theorem cstr_eq_self {bytes : List UInt8} (h : 0 ∉ bytes) : cstr bytes = bytes := by
  refine List.takeWhile_eq_self_iff.mpr fun b hb => decide_eq_true ?_
  rintro rfl
  exact h hb

theorem zero_notMem_cstr (bytes : List UInt8) : 0 ∉ cstr bytes := by
  intro h
  have hne := List.mem_takeWhile_imp h
  exact absurd hne (by decide)

/-! ## Lines -/

/-- What the calls of `fgets` return, one after the other, when `room` bytes fit the buffer and
`line` has been read of the line already. -/
def fgetsFrom (room : ℕ) : List UInt8 → List UInt8 → List (List UInt8)
  | line, [] => if line = [] then [] else [line]
  | line, b :: rest =>
    if b = 0x0A ∨ line.length + 1 = room then (line ++ [b]) :: fgetsFrom room [] rest
    else fgetsFrom room (line ++ [b]) rest

/-- What the calls of `fgets(buf, size, fp)` return, one after the other: the lines of the file
with their newlines, cut into pieces of less than `size` bytes. -/
def fgets (size : ℕ) (content : List UInt8) : List (List UInt8) := fgetsFrom (size - 1) [] content

/-- A line that fits is read at once. -/
theorem fgetsFrom_append {room : ℕ} {rest : List UInt8} (text : List UInt8) :
    ∀ line : List UInt8, 0x0A ∉ text → line.length + text.length < room →
      fgetsFrom room line (text ++ rest) = fgetsFrom room (line ++ text) rest := by
  induction text with
  | nil => exact fun line _ _ => by rw [List.nil_append, List.append_nil]
  | cons b text ih =>
    intro line hline hroom
    rw [List.length_cons] at hroom
    have hb : ¬(b = 0x0A ∨ line.length + 1 = room) := by
      rintro (rfl | hfull)
      · exact hline List.mem_cons_self
      · omega
    have hlen : (line ++ [b]).length + text.length < room := by
      rw [List.length_append, List.length_singleton]
      omega
    rw [List.cons_append, fgetsFrom, if_neg hb, ih _ (List.not_mem_of_not_mem_cons hline) hlen,
      List.append_assoc, List.singleton_append]

/-- A line that fits, with its newline. -/
theorem fgets_line {size : ℕ} {text : List UInt8} (hline : 0x0A ∉ text)
    (hroom : text.length + 1 < size) (rest : List UInt8) :
    fgets size (text ++ 0x0A :: rest) = (text ++ [0x0A]) :: fgets size rest := by
  rw [fgets, fgetsFrom_append text [] hline (by rw [List.length_nil]; omega), List.nil_append,
    fgetsFrom, if_pos (Or.inl rfl), fgets]

/-- A last line that no newline ends. -/
theorem fgets_last {size : ℕ} {text : List UInt8} (hline : 0x0A ∉ text)
    (hroom : text.length + 1 < size) :
    fgets size text = if text = [] then [] else [text] := by
  have h : fgetsFrom (size - 1) [] (text ++ []) = fgetsFrom (size - 1) ([] ++ text) [] :=
    fgetsFrom_append text [] hline (by rw [List.length_nil]; omega)
  rw [List.append_nil, List.nil_append] at h
  rw [fgets, h, fgetsFrom]

/-- Lines as `fgets` returns them: with their newlines, and without a last line that is empty. -/
def fgetsLines : List (List UInt8) → List (List UInt8)
  | [] => []
  | [line] => if line = [] then [] else [line]
  | line :: line' :: lines => (line ++ [0x0A]) :: fgetsLines (line' :: lines)

/-- A file of lines that fit. -/
theorem fgets_intercalate {size : ℕ} : ∀ lines : List (List UInt8),
    (∀ line ∈ lines, 0x0A ∉ line ∧ line.length + 1 < size) →
      fgets size ([0x0A].intercalate lines) = fgetsLines lines
  | [], _ => rfl
  | [line], h => by
    obtain ⟨hline, hroom⟩ := h line List.mem_cons_self
    rw [List.intercalate_singleton, fgets_last hline hroom, fgetsLines]
  | line :: line' :: lines, h => by
    obtain ⟨⟨hline, hroom⟩, hrest⟩ := List.forall_mem_cons.mp h
    rw [List.intercalate_cons_cons, List.append_assoc, List.singleton_append,
      fgets_line hline hroom, fgets_intercalate _ hrest, fgetsLines]

/-! ## Words -/

/-- The words between delimiters. Several delimiters in a row separate no more than one does, as
with `strtok`. -/
def words (delim : α → Bool) (s : List α) : List (List α) :=
  (s.splitOnP delim).filter fun w => !w.isEmpty

variable {delim : α → Bool}

@[simp] theorem words_nil : words delim [] = [] := rfl

/-- A delimiter splits. -/
theorem words_append_cons {d : α} (hd : delim d = true) (s t : List α) :
    words delim (s ++ d :: t) = words delim s ++ words delim t := by
  rw [words, List.splitOnP_append_cons s t hd, List.filter_append]
  rfl

theorem words_cons {d : α} (hd : delim d = true) (t : List α) :
    words delim (d :: t) = words delim t := words_append_cons hd [] t

/-- Text without delimiters is a word. -/
theorem words_word {w : List α} (hne : w ≠ []) (hw : ∀ c ∈ w, delim c = false) :
    words delim w = [w] := by
  rw [words, List.splitOnP_eq_singleton hw]
  exact List.filter_cons_of_pos (by simpa using hne)

/-- Delimiters in front do not matter. -/
theorem words_dropWhile (s : List α) : words delim (s.dropWhile delim) = words delim s := by
  induction s with
  | nil => rfl
  | cons c s ih =>
    cases hc : delim c with
    | true => rw [List.dropWhile_cons_of_pos hc, words_cons hc, ih]
    | false => rw [List.dropWhile_cons_of_neg (by rw [hc]; decide)]

/-- The first word, and those behind the delimiter that ends it. -/
theorem words_takeWhile {c : α} (hc : delim c = false) (s : List α) :
    words delim (c :: s) = (c :: s).takeWhile (fun c => !delim c) ::
      words delim (((c :: s).dropWhile fun c => !delim c).drop 1) := by
  have hsplit := List.takeWhile_append_dropWhile (p := fun c => !delim c) (l := c :: s)
  have hne : (c :: s).takeWhile (fun c => !delim c) ≠ [] := by
    rw [List.takeWhile_cons_of_pos (by rw [hc]; rfl)]
    exact List.cons_ne_nil _ _
  have hword : ∀ x ∈ (c :: s).takeWhile (fun c => !delim c), delim x = false := fun x hx => by
    simpa using List.mem_takeWhile_imp hx
  have hrest := List.head?_dropWhile_not (fun c => !delim c) (c :: s)
  generalize (c :: s).takeWhile (fun c => !delim c) = w at *
  generalize (c :: s).dropWhile (fun c => !delim c) = rest at *
  rw [← hsplit]
  cases rest with
  | nil => rw [List.append_nil, words_word hne hword]; rfl
  | cons d rest =>
    have hd : delim d = true := by simpa using hrest
    rw [words_append_cons hd, words_word hne hword]
    rfl

/-- The first word begins where the text does, if that is no delimiter. -/
theorem head?_of_words_eq_cons {c : α} (hc : delim c = false) {s w : List α} {ws : List (List α)}
    (h : words delim (c :: s) = w :: ws) : w.head? = some c := by
  rw [words_takeWhile hc, List.takeWhile_cons_of_pos (by rw [hc]; rfl)] at h
  rw [← (List.cons.inj h).1]
  rfl

/-- What comes behind a word: nothing, or a delimiter. -/
def Stops (delim : α → Bool) (tail : List α) : Prop := ∀ d ∈ tail.head?, delim d = true

/-- A word in front of other text. -/
theorem words_append {w tail : List α} (hne : w ≠ []) (hw : ∀ c ∈ w, delim c = false)
    (htail : Stops delim tail) : words delim (w ++ tail) = w :: words delim tail := by
  cases tail with
  | nil => rw [List.append_nil, words_word hne hw]; rfl
  | cons d tail =>
    have hd : delim d = true := htail d rfl
    rw [words_append_cons hd, words_word hne hw, words_cons hd]
    rfl

/-- The first word of a text, taken off. -/
theorem exists_of_words_eq_cons {s w : List α} {ws : List (List α)}
    (h : words delim s = w :: ws) :
    ∃ tail, s.dropWhile delim = w ++ tail ∧ words delim tail = ws ∧ Stops delim tail := by
  rw [← words_dropWhile] at h
  have hfirst := List.head?_dropWhile_not delim s
  generalize s.dropWhile delim = s at *
  cases s with
  | nil => exact absurd h.symm (List.cons_ne_nil _ _)
  | cons c s =>
    have hc : delim c = false := by simpa using hfirst
    have hstops : Stops delim ((c :: s).dropWhile fun c => !delim c) := fun d hd => by
      have hrest := List.head?_dropWhile_not (fun c => !delim c) (c :: s)
      rw [Option.mem_def.mp hd] at hrest
      simpa using hrest
    rw [words_takeWhile hc] at h
    obtain ⟨rfl, hws⟩ := List.cons.inj h
    refine ⟨_, List.takeWhile_append_dropWhile.symm, ?_, hstops⟩
    rw [← hws]
    generalize (c :: s).dropWhile (fun c => !delim c) = tail at *
    cases tail with
    | nil => rfl
    | cons d tail => exact words_cons (hstops d rfl) tail

/-- Delimiters in front, all of them. -/
theorem words_delims_append {g : List α} (hg : ∀ c ∈ g, delim c = true) (s : List α) :
    words delim (g ++ s) = words delim s := by
  induction g with
  | nil => rfl
  | cons c g ih =>
    obtain ⟨hc, hrest⟩ := List.forall_mem_cons.mp hg
    rw [List.cons_append, words_cons hc, ih hrest]

/-- Delimiters between two texts. -/
theorem words_append_delims {g : List α} (hne : g ≠ []) (hg : ∀ c ∈ g, delim c = true)
    (s t : List α) : words delim (s ++ (g ++ t)) = words delim s ++ words delim t := by
  cases g with
  | nil => exact absurd rfl hne
  | cons d g =>
    obtain ⟨hd, hrest⟩ := List.forall_mem_cons.mp hg
    rw [List.cons_append, words_append_cons hd, words_delims_append hrest]

/-- The pieces hold everything but the delimiters. -/
theorem flatten_splitOnP (s : List α) : (s.splitOnP delim).flatten = s.filter fun c => !delim c := by
  induction s with
  | nil => rfl
  | cons c s ih =>
    rw [List.splitOnP_cons_eq_if_modifyHead]
    cases hc : delim c with
    | true =>
      rw [if_pos rfl, List.filter_cons_of_neg (by simp [hc])]
      exact ih
    | false =>
      obtain ⟨w, ws, hws⟩ := List.exists_cons_of_ne_nil (List.splitOnP_ne_nil delim s)
      rw [if_neg (by decide), List.filter_cons_of_pos (by simp [hc]), ← ih, hws]
      rfl

/-- No piece has a delimiter in it. -/
theorem delim_of_mem_splitOnP {s w : List α} (h : w ∈ s.splitOnP delim) :
    ∀ c ∈ w, delim c = false := by
  intro c hc
  have hmem : c ∈ (s.splitOnP delim).flatten := List.mem_flatten.mpr ⟨w, h, hc⟩
  rw [flatten_splitOnP] at hmem
  simpa using (List.mem_filter.mp hmem).2

/-- The words hold everything but the delimiters. -/
theorem flatten_words (s : List α) : (words delim s).flatten = s.filter fun c => !delim c := by
  rw [words, List.flatten_filter_not_isEmpty, flatten_splitOnP]

/-- A word is not empty and has no delimiter in it. -/
theorem mem_words {s w : List α} (h : w ∈ words delim s) : w ≠ [] ∧ ∀ c ∈ w, delim c = false := by
  obtain ⟨hmem, hne⟩ := List.mem_filter.mp h
  exact ⟨by simpa using hne, delim_of_mem_splitOnP hmem⟩

/-- A text without words. -/
theorem words_eq_nil_iff {s : List α} : words delim s = [] ↔ ∀ c ∈ s, delim c = true := by
  constructor
  · intro h
    have hflat : (words delim s).flatten = s.filter fun c => !delim c := flatten_words s
    rw [h] at hflat
    exact fun c hc => by simpa using List.filter_eq_nil_iff.mp hflat.symm c hc
  · intro h
    rw [← List.append_nil s, words_delims_append h]
    rfl

/-- The words of a field. -/
theorem words_field {w : List α} (hw : ∀ c ∈ w, delim c = false) :
    words delim w = [w].filter fun w => !w.isEmpty := by
  rw [words, List.splitOnP_eq_singleton hw]

/-- The words of a record are its fields, without the empty ones. -/
theorem words_intercalate {d : α} (hd : delim d = true) :
    ∀ fields : List (List α), (∀ w ∈ fields, ∀ c ∈ w, delim c = false) →
      words delim ([d].intercalate fields) = fields.filter fun w => !w.isEmpty
  | [], _ => rfl
  | [w], h => by
    rw [List.intercalate_singleton, words_field (h w List.mem_cons_self)]
  | w :: w' :: fields, h => by
    obtain ⟨hw, hfields⟩ := List.forall_mem_cons.mp h
    rw [List.intercalate_cons_cons, List.append_assoc, List.singleton_append,
      words_append_cons hd, words_field hw, words_intercalate hd _ hfields, ← List.filter_append,
      List.singleton_append]

/-! ## Tokens -/

/-- `strtok_r`: the token at the front of what is left of the string, and what is left then. -/
def strtok (delim : α → Bool) (s : List α) : Option (List α × List α) :=
  let s := s.dropWhile delim
  if s.isEmpty then none
  else some (s.takeWhile (fun c => !delim c), (s.dropWhile fun c => !delim c).drop 1)

/-- The tokens of up to `n` calls. -/
def tokens (delim : α → Bool) : ℕ → List α → List (List α)
  | 0, _ => []
  | n + 1, s =>
    match strtok delim s with
    | none => []
    | some (token, rest) => token :: tokens delim n rest

/-- **The tokens are the words.** -/
theorem tokens_eq (n : ℕ) : ∀ s : List α, tokens delim n s = (words delim s).take n := by
  induction n with
  | zero => exact fun _ => rfl
  | succ n ih =>
    intro s
    rw [tokens, strtok, ← words_dropWhile s]
    have hfirst := List.head?_dropWhile_not delim s
    generalize s.dropWhile delim = s at *
    cases s with
    | nil => rfl
    | cons c s =>
      have hc : delim c = false := by simpa using hfirst
      rw [words_takeWhile hc, List.take_succ_cons, ← ih]
      rfl

/-- Nothing is missing if the string is not cut, and its tokens are not. -/
theorem take_words_take {s : List α} (hlast : ∀ h : s ≠ [], delim (s.getLast h) = false)
    (size n : ℕ) : (words delim (s.take size)).take n = words delim s ↔
      s.length ≤ size ∧ (words delim s).length ≤ n := by
  constructor
  · intro h
    have hlen := congrArg List.length h
    rw [List.length_take] at hlen
    refine ⟨?_, by omega⟩
    -- otherwise the last character is missing, and the tokens hold fewer of them
    by_contra hlong
    have hflat : (words delim s).flatten.length ≤ (words delim (s.take size)).flatten.length := by
      have hsplit := congrArg (fun ws => ws.flatten.length)
        (List.take_append_drop n (words delim (s.take size)))
      simp only [List.flatten_append, List.length_append, h] at hsplit
      omega
    have hdrop : s.drop size ≠ [] := by
      rw [Ne, List.drop_eq_nil_iff]
      exact hlong
    have hne : s ≠ [] := List.ne_nil_of_drop_ne_nil hdrop
    have hmem : s.getLast hne ∈ (s.drop size).filter fun c => !delim c := by
      refine List.mem_filter.mpr ⟨?_, by rw [hlast hne]; rfl⟩
      rw [← List.getLast_drop hdrop]
      exact List.getLast_mem hdrop
    rw [flatten_words, flatten_words, ← List.take_append_drop size s, List.filter_append,
      List.length_append, List.take_append_drop] at hflat
    have hpos := List.length_pos_of_mem hmem
    omega
  · rintro ⟨hsize, hn⟩
    rw [List.take_of_length_le hsize, List.take_of_length_le hn]

/-! ## Parts -/

/-- The parts before and behind the first `d`. -/
theorem cut_append_cons [DecidableEq α] {d : α} {u : List α} (hu : d ∉ u) (w : List α) :
    (u ++ d :: w).takeWhile (fun c => c ≠ d) = u ∧
      ((u ++ d :: w).dropWhile fun c => c ≠ d).drop 1 = w := by
  have hpos : ∀ c ∈ u, decide (c ≠ d) = true := fun c hc =>
    decide_eq_true fun heq => hu (heq ▸ hc)
  constructor
  · rw [List.takeWhile_append_of_pos hpos, List.takeWhile_cons_of_neg (by simp), List.append_nil]
  · rw [List.dropWhile_append_of_pos hpos, List.dropWhile_cons_of_neg (by simp)]
    rfl

/-- A string ends at the first NUL byte. -/
theorem cstr_append_cons {a : List UInt8} (ha : 0 ∉ a) (b : List UInt8) : cstr (a ++ 0 :: b) = a :=
  (cut_append_cons ha b).1

/-- What is behind it is of no matter. -/
theorem cstr_append_of_mem {a : List UInt8} (ha : 0 ∈ a) (b : List UInt8) :
    cstr (a ++ b) = cstr a := by
  obtain ⟨front, back, rfl, hfront⟩ := List.eq_append_cons_of_mem ha
  rw [List.append_assoc, List.cons_append, cstr_append_cons hfront, cstr_append_cons hfront]

/-! ## Trimming -/

/-- A string without the blanks at its two ends. -/
def trim (blank : α → Bool) (s : List α) : List α := (s.dropWhile blank).rdropWhile blank

variable {blank : α → Bool}

/-- A blank at the end does not matter. -/
theorem trim_concat {b : α} (hb : blank b = true) (s : List α) :
    trim blank (s ++ [b]) = trim blank s := by
  rw [trim, trim, List.dropWhile_append]
  split
  · rename_i hnone
    rw [List.isEmpty_iff.mp hnone, List.dropWhile_cons_of_pos hb]
    rfl
  · exact List.rdropWhile_concat_pos _ _ _ hb

/-- Nor do any number of them. -/
theorem trim_append_blanks {g : List α} (hg : ∀ b ∈ g, blank b = true) (s : List α) :
    trim blank (s ++ g) = trim blank s := by
  induction g generalizing s with
  | nil => rw [List.append_nil]
  | cons b g ih =>
    obtain ⟨hb, hrest⟩ := List.forall_mem_cons.mp hg
    rw [List.append_cons, ih hrest, trim_concat hb]

/-- A blank in front does not matter either. -/
theorem trim_dropWhile (s : List α) : trim blank (s.dropWhile blank) = trim blank s := by
  rw [trim, trim, List.dropWhile_idempotent]

theorem rdropWhile_append_cons {c : α} (hc : blank c = false) (s t : List α) :
    (s ++ c :: t).rdropWhile blank = s ++ c :: t.rdropWhile blank := by
  induction t using List.reverseRecOn with
  | nil => exact List.rdropWhile_concat_neg _ _ _ (by rw [hc]; decide)
  | append_singleton t b ih =>
    rw [← List.cons_append, ← List.append_assoc, List.rdropWhile_concat, List.rdropWhile_concat]
    split_ifs
    · exact ih
    · rw [List.append_assoc, List.cons_append]

/-- A string that has something else than blanks in it. -/
theorem trim_append_cons {c : α} (hc : blank c = false) (s t : List α) :
    trim blank (s ++ c :: t) = s.dropWhile blank ++ c :: t.rdropWhile blank := by
  have hdrop : (s ++ c :: t).dropWhile blank = s.dropWhile blank ++ c :: t := by
    rw [List.dropWhile_append]
    split
    · rename_i hnone
      rw [List.isEmpty_iff.mp hnone, List.dropWhile_cons_of_neg (by rw [hc]; decide),
        List.nil_append]
    · rfl
  rw [trim, hdrop, rdropWhile_append_cons hc]

/-- What is left is a part of the string. -/
theorem trim_isInfix (s : List α) : trim blank s <:+: s :=
  (List.rdropWhile_prefix _ _).isInfix.trans (List.dropWhile_suffix _).isInfix

/-- What is left begins with no blank. -/
theorem blank_of_trim_cons {s t : List α} {c : α} (h : trim blank s = c :: t) : blank c = false := by
  obtain ⟨rest, hrest⟩ := List.rdropWhile_prefix blank (s.dropWhile blank)
  have hfirst := List.head?_dropWhile_not blank s
  rw [← hrest, ← trim, h] at hfirst
  simpa using hfirst

/-- And it ends with none. -/
theorem blank_getLast_trim {s : List α} (h : trim blank s ≠ []) :
    blank ((trim blank s).getLast h) = false := by
  have hlast := List.rdropWhile_last_not blank (s.dropWhile blank) h
  exact Bool.eq_false_iff.mpr hlast

/-- A string is trimmed once. -/
theorem trim_trim (s : List α) : trim blank (trim blank s) = trim blank s := by
  cases h : trim blank s with
  | nil => rfl
  | cons c t =>
    rw [trim, List.dropWhile_cons_of_neg (by rw [blank_of_trim_cons h]; decide), ← h, trim,
      List.rdropWhile_idempotent]

end CStrings
