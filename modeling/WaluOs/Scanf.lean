import WaluOs.CStrings

/-!
# Formatted input

The conversions of `fscanf` on the bytes that are left of a stream. They know nothing of
lines: each skips white space, newlines included, and takes what it can use of the next
word, which for `%Ns` is at most `N` bytes of it.

The laws (`scanString_words`, `scanDecimal_words`) are about the words that are left of
the stream up to some white space further on, usually the end of a line: which of them a
conversion takes, and what remains of one that is too long.
-/

namespace Scanf

open CStrings

/-- `isspace`: blank, tab, newline, vertical tab, form feed and carriage return. -/
def isSpace (b : UInt8) : Bool := b = 0x20 ∨ (0x09 ≤ b ∧ b ≤ 0x0D)

/-- `isdigit` -/
def isDigit (b : UInt8) : Bool := 0x30 ≤ b ∧ b ≤ 0x39

/-- `%Ns`: what is assigned, and what is left of the stream. -/
def scanString (width : ℕ) (stream : List UInt8) : Option (List UInt8 × List UInt8) :=
  let stream := stream.dropWhile isSpace
  if stream.isEmpty then none
  else
    let word := (stream.takeWhile fun b => !isSpace b).take width
    some (word, stream.drop word.length)

/-- The sign of a number. -/
def skipSign (stream : List UInt8) : List UInt8 :=
  match stream with
  | b :: rest => if b = 0x2B ∨ b = 0x2D then rest else stream
  | [] => []

/-- `%*d`: what is left of the stream, and whether there was a number. -/
def scanDecimal (stream : List UInt8) : List UInt8 × Bool :=
  let stream := skipSign (stream.dropWhile isSpace)
  (stream.dropWhile isDigit, (stream.takeWhile isDigit).length ≠ 0)

/-- The words of a stream. -/
abbrev fields (stream : List UInt8) : List (List UInt8) := words isSpace stream

variable {u : List UInt8} {c : UInt8}

theorem isSpace_of_isDigit {b : UInt8} (h : isDigit b = true) : isSpace b = false := by
  have hall : ∀ n < 0x100, isDigit (UInt8.ofNat n) = true → isSpace (UInt8.ofNat n) = false := by
    decide +kernel
  have hb := hall b.toNat b.toNat_lt
  rw [UInt8.ofNat_toNat] at hb
  exact hb h

/-- White space is skipped up to the first word, and the word ends before the next. -/
theorem dropWhile_fields (rest : List UInt8) (hc : isSpace c = true) {w : List UInt8}
    {ws : List (List UInt8)} (h : fields u = w :: ws) :
    ∃ tail, (u ++ c :: rest).dropWhile isSpace = w ++ (tail ++ c :: rest) ∧ fields tail = ws ∧
      Stops isSpace tail ∧ Stops isSpace (tail ++ c :: rest) := by
  obtain ⟨hne, -⟩ := mem_words (h ▸ List.mem_cons_self : w ∈ fields u)
  obtain ⟨tail, hdrop, hws, hstops⟩ := exists_of_words_eq_cons h
  refine ⟨tail, ?_, hws, hstops, ?_⟩
  · rw [List.dropWhile_append, hdrop, if_neg (by simp [hne]), List.append_assoc]
  · cases tail with
    | nil => exact fun d hd => by rwa [← Option.mem_some_iff.mp hd]
    | cons d tail => exact hstops

/-- A word is taken up to where it stops. -/
theorem takeWhile_append_stops {p : UInt8 → Bool} {w tail : List UInt8} (hw : ∀ b ∈ w, p b = true)
    (htail : ∀ d ∈ tail.head?, p d = false) : (w ++ tail).takeWhile p = w := by
  rw [List.takeWhile_append_of_pos hw]
  cases tail with
  | nil => exact List.append_nil w
  | cons d tail => rw [List.takeWhile_cons_of_neg (by rw [htail d rfl]; decide), List.append_nil]

theorem dropWhile_append_stops {p : UInt8 → Bool} {w tail : List UInt8} (hw : ∀ b ∈ w, p b = true)
    (htail : ∀ d ∈ tail.head?, p d = false) : (w ++ tail).dropWhile p = tail := by
  rw [List.dropWhile_append_of_pos hw]
  cases tail with
  | nil => rfl
  | cons d tail => rw [List.dropWhile_cons_of_neg (by rw [htail d rfl]; decide)]

/-- What is left is shorter. -/
theorem length_scanString_lt {width : ℕ} (hwidth : 0 < width) {stream rest w : List UInt8}
    (h : scanString width stream = some (w, rest)) : rest.length < stream.length := by
  have hle : (stream.dropWhile isSpace).length ≤ stream.length :=
    (List.dropWhile_suffix isSpace).length_le
  have hfirst := List.head?_dropWhile_not isSpace stream
  rw [scanString] at h
  generalize stream.dropWhile isSpace = v at *
  cases v with
  | nil => exact absurd h.symm (Option.some_ne_none _)
  | cons b v =>
    have hb : isSpace b = false := by simpa using hfirst
    obtain ⟨hw, rfl⟩ := Prod.mk.inj (Option.some.inj h)
    have htaken : 0 < (((b :: v).takeWhile fun b => !isSpace b).take width).length := by
      rw [List.takeWhile_cons_of_pos (by rw [hb]; rfl), List.length_take, List.length_cons]
      exact Nat.lt_min.mpr ⟨hwidth, Nat.succ_pos _⟩
    rw [List.length_drop]
    exact Nat.lt_of_lt_of_le (Nat.sub_lt (Nat.succ_pos _) htaken) hle

/-- A number leaves no more than there was. -/
theorem length_scanDecimal_le (stream : List UInt8) :
    (scanDecimal stream).1.length ≤ stream.length := by
  have hsign : ∀ s : List UInt8, (skipSign s).length ≤ s.length := by
    intro s
    cases s with
    | nil => exact le_rfl
    | cons b s =>
      rw [skipSign]
      split
      · exact Nat.le_succ _
      · exact le_rfl
  calc (scanDecimal stream).1.length
      ≤ (skipSign (stream.dropWhile isSpace)).length := (List.dropWhile_suffix isDigit).length_le
    _ ≤ (stream.dropWhile isSpace).length := hsign _
    _ ≤ stream.length := (List.dropWhile_suffix isSpace).length_le

/-- **What `%Ns` takes**: the next word, or `N` bytes of it, and then the rest of it is the next
word. -/
theorem scanString_words (width : ℕ) (rest : List UInt8) (hc : isSpace c = true) {w : List UInt8}
    {ws : List (List UInt8)} (h : fields u = w :: ws) :
    ∃ u', scanString width (u ++ c :: rest) = some (w.take width, u' ++ c :: rest) ∧
      fields u' = if w.length ≤ width then ws else w.drop width :: ws := by
  obtain ⟨hne, hw⟩ := mem_words (h ▸ List.mem_cons_self : w ∈ fields u)
  obtain ⟨tail, hdrop, hws, hstops, hstops'⟩ := dropWhile_fields rest hc h
  have htake : (w ++ (tail ++ c :: rest)).takeWhile (fun b => !isSpace b) = w :=
    takeWhile_append_stops (fun b hb => by rw [hw b hb]; rfl) fun d hd => by rw [hstops' d hd]; rfl
  have hlen : (w.take width).length ≤ w.length := List.length_take_le' _ _
  have hrest : w.drop (w.take width).length = w.drop width := by
    rw [List.length_take, Nat.min_def]
    split
    · rfl
    · rename_i hshort
      rw [List.drop_length, List.drop_eq_nil_of_le (Nat.le_of_not_le hshort)]
  refine ⟨w.drop width ++ tail, ?_, ?_⟩
  · rw [scanString]
    dsimp only
    rw [hdrop, htake, if_neg (by simp [hne]), List.drop_append_of_le_length hlen, hrest,
      List.append_assoc]
  · split
    · rename_i hfits
      rw [List.drop_eq_nil_of_le hfits]
      exact hws
    · rename_i hcut
      have hdark : ∀ b ∈ w.drop width, isSpace b = false := fun b hb =>
        hw b (List.mem_of_mem_drop hb)
      rw [fields, words_append (by simpa using hcut) hdark hstops, ← fields, hws]

/-- A sign in front of a number, if there is one. -/
theorem skipSign_append (w tail : List UInt8) (hne : w ≠ []) :
    ∃ w', skipSign (w ++ tail) = w' ++ tail ∧ w' <:+ w := by
  cases w with
  | nil => exact absurd rfl hne
  | cons b w =>
    rw [List.cons_append, skipSign]
    split
    · exact ⟨w, rfl, List.suffix_cons b w⟩
    · exact ⟨b :: w, rfl, List.suffix_refl _⟩

/-- White space is no digit. -/
theorem isDigit_of_stops {tail : List UInt8} (h : Stops isSpace tail) :
    ∀ d ∈ tail.head?, isDigit d = false := by
  intro d hd
  rw [Bool.eq_false_iff]
  intro hdigit
  have hspace := h d hd
  rw [isSpace_of_isDigit hdigit] at hspace
  exact absurd hspace (by decide)

/-- **What `%*d` takes**: no more than the next word. -/
theorem scanDecimal_words (rest : List UInt8) (hc : isSpace c = true) {w : List UInt8}
    {ws : List (List UInt8)} (h : fields u = w :: ws) :
    ∃ u', (scanDecimal (u ++ c :: rest)).1 = u' ++ c :: rest ∧
      (fields u' = ws ∨ ∃ w', fields u' = w' :: ws) := by
  obtain ⟨hne, hw⟩ := mem_words (h ▸ List.mem_cons_self : w ∈ fields u)
  obtain ⟨tail, hdrop, hws, hstops, hstops'⟩ := dropWhile_fields rest hc h
  obtain ⟨w', hsign, hsuffix⟩ := skipSign_append w (tail ++ c :: rest) hne
  have hrest : (tail ++ c :: rest).dropWhile isDigit = tail ++ c :: rest :=
    dropWhile_append_stops (List.forall_mem_nil _) (isDigit_of_stops hstops')
  have hdigits : (w' ++ (tail ++ c :: rest)).dropWhile isDigit =
      w'.dropWhile isDigit ++ (tail ++ c :: rest) := by
    rw [List.dropWhile_append]
    split
    · rename_i hnone
      rw [List.isEmpty_iff.mp hnone, List.nil_append, hrest]
    · rfl
  refine ⟨w'.dropWhile isDigit ++ tail, ?_, ?_⟩
  · rw [scanDecimal]
    dsimp only
    rw [hdrop, hsign, hdigits, List.append_assoc]
  · by_cases hnone : w'.dropWhile isDigit = []
    · rw [hnone]
      exact Or.inl hws
    · have hdark : ∀ b ∈ w'.dropWhile isDigit, isSpace b = false := fun b hb =>
        hw b (hsuffix.subset ((List.dropWhile_suffix _).subset hb))
      refine Or.inr ⟨w'.dropWhile isDigit, ?_⟩
      rw [fields, words_append hnone hdark hstops, ← fields, hws]

/-- A number is taken whole. -/
theorem scanDecimal_number (rest : List UInt8) (hc : isSpace c = true) {w : List UInt8}
    {ws : List (List UInt8)} (h : fields u = w :: ws) (hdigits : ∀ b ∈ w, isDigit b = true) :
    ∃ u', scanDecimal (u ++ c :: rest) = (u' ++ c :: rest, true) ∧ fields u' = ws := by
  obtain ⟨hne, -⟩ := mem_words (h ▸ List.mem_cons_self : w ∈ fields u)
  obtain ⟨tail, hdrop, hws, -, hstops'⟩ := dropWhile_fields rest hc h
  have hsign : skipSign (w ++ (tail ++ c :: rest)) = w ++ (tail ++ c :: rest) := by
    cases w with
    | nil => exact absurd rfl hne
    | cons b w =>
      have hb := hdigits b List.mem_cons_self
      rw [List.cons_append, skipSign, if_neg]
      rintro (rfl | rfl)
      · exact absurd hb (by decide)
      · exact absurd hb (by decide)
  have htail := isDigit_of_stops hstops'
  refine ⟨tail, ?_, hws⟩
  rw [scanDecimal, hdrop, hsign, dropWhile_append_stops hdigits htail,
    takeWhile_append_stops hdigits htail]
  exact congrArg (Prod.mk _) (decide_eq_true (mt List.length_eq_zero_iff.mp hne))

end Scanf
