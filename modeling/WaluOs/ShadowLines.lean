import WaluOs.Authd
import WaluOs.FilePieces

/-!
# Lines of the shadow file

`parse_shadow_hash` takes each piece that `fgets` reads for a record, and the first text of the
piece that is not empty for its name. So the name of a record may stand behind colons, or in the
middle of a line that does not fit the buffer.

`parseShadowPlace` is the loop with the place of the name that it takes. `parseShadowHash_line_iff`
says when that place is the beginning of a line.
-/

namespace WaluOs

open CStrings

/-! ## The program -/

/-- The loop of `parse_shadow_hash`, with what stands in front of the name in place of the hash;
`before` has been read. The two loops take the same turns, so it tells which place in the file a
hash was taken from. -/
def parseShadowPlace (user : List UInt8) : List UInt8 → List (List UInt8) → Option (List UInt8)
  | _, [] => none
  | before, line :: lines =>
    match tokens isColonOrNewline 2 (cstr line) with
    | [name, _] =>
      if name = user then some (before ++ line.takeWhile isColonOrNewline)
      else parseShadowPlace user (before ++ line) lines
    | _ => parseShadowPlace user (before ++ line) lines

/-- What is read is a record of the user. -/
def Names (user piece : List UInt8) : Prop :=
  ∃ hash, tokens isColonOrNewline 2 (cstr piece) = [user, hash]

variable {user line : List UInt8} {lines : List (List UInt8)}

theorem parseShadowLoop_names (h : Names user line) (outLen : ℕ) :
    ∃ hash, parseShadowLoop user outLen (line :: lines) = .found hash := by
  obtain ⟨hash, htokens⟩ := h
  refine ⟨snprintf outLen hash, ?_⟩
  rw [parseShadowLoop, htokens]
  exact if_pos rfl

theorem parseShadowPlace_names (h : Names user line) (before : List UInt8) :
    parseShadowPlace user before (line :: lines) =
      some (before ++ line.takeWhile isColonOrNewline) := by
  obtain ⟨hash, htokens⟩ := h
  rw [parseShadowPlace, htokens]
  exact if_pos rfl

/-- Another piece is passed by both loops. -/
theorem parseShadow_other (h : ¬Names user line) (lines : List (List UInt8)) (outLen : ℕ)
    (before : List UInt8) :
    parseShadowLoop user outLen (line :: lines) = parseShadowLoop user outLen lines ∧
      parseShadowPlace user before (line :: lines) =
        parseShadowPlace user (before ++ line) lines := by
  rw [parseShadowLoop, parseShadowPlace]
  rcases htokens : tokens isColonOrNewline 2 (cstr line) with _ | ⟨name, _ | ⟨hash, _ | _⟩⟩
  · exact ⟨rfl, rfl⟩
  · exact ⟨rfl, rfl⟩
  · have hname : name ≠ user := by
      rintro rfl
      exact h ⟨hash, htokens⟩
    exact ⟨if_neg hname, if_neg hname⟩
  · exact ⟨rfl, rfl⟩

/-- A place is found when a hash is. -/
theorem parseShadowPlace_iff (user : List UInt8) (outLen : ℕ) (lines : List (List UInt8)) :
    ∀ before, (∃ place, parseShadowPlace user before lines = some place) ↔
      ∃ hash, parseShadowLoop user outLen lines = .found hash := by
  induction lines with
  | nil =>
    intro before
    simp [parseShadowPlace, parseShadowLoop]
  | cons line lines ih =>
    intro before
    by_cases h : Names user line
    · exact ⟨fun _ => parseShadowLoop_names h outLen, fun _ => ⟨_, parseShadowPlace_names h before⟩⟩
    · obtain ⟨hloop, hplace⟩ := parseShadow_other h lines outLen before
      rw [hloop, hplace]
      exact ih _

/-- The place is that of the first record. No piece in front of it names the user, and what is
skipped at its beginning are the colons that the scanner leaves out. -/
theorem parseShadowPlace_eq_some_iff {place : List UInt8} (lines : List (List UInt8)) :
    ∀ before, parseShadowPlace user before lines = some place ↔
      ∃ front piece back, lines = front ++ piece :: back ∧ (∀ p ∈ front, ¬Names user p) ∧
        Names user piece ∧
        place = before ++ front.flatten ++ piece.takeWhile isColonOrNewline := by
  induction lines with
  | nil =>
    intro before
    simp [parseShadowPlace]
  | cons line lines ih =>
    intro before
    by_cases hnames : Names user line
    · rw [parseShadowPlace_names hnames, Option.some_inj]
      constructor
      · rintro rfl
        exact ⟨[], line, lines, rfl, fun _ h => absurd h List.not_mem_nil, hnames, by simp⟩
      · rintro ⟨_ | ⟨p, front⟩, piece, back, hlines, hfront, -, rfl⟩
        · obtain ⟨rfl, -⟩ := List.cons.inj hlines
          simp
        · obtain ⟨rfl, -⟩ := List.cons.inj hlines
          exact absurd hnames (hfront line List.mem_cons_self)
    · rw [(parseShadow_other hnames lines 0 before).2, ih]
      constructor
      · rintro ⟨front, piece, back, rfl, hfront, hpiece, rfl⟩
        refine ⟨line :: front, piece, back, rfl, ?_, hpiece, by simp⟩
        exact List.forall_mem_cons.mpr ⟨hnames, hfront⟩
      · rintro ⟨_ | ⟨p, front⟩, piece, back, hlines, hfront, hpiece, rfl⟩
        · obtain ⟨rfl, -⟩ := List.cons.inj hlines
          exact absurd hpiece hnames
        · obtain ⟨rfl, rfl⟩ := List.cons.inj hlines
          exact ⟨front, piece, back, rfl, (List.forall_mem_cons.mp hfront).2, hpiece, by simp⟩

/-! ## Records -/

/-- The text is a record of the user behind the colons `g`: the name, a colon, and a field that is
not empty. The scanner leaves out empty fields, so colons in front of a name do not count for it.
-/
structure RecordBehind (g user text : List UInt8) : Prop where
  /-- what stands in front -/
  colons : ∀ b ∈ g, b = 0x3A
  /-- the name -/
  name : user ≠ [] ∧ 0x3A ∉ user
  /-- what stands behind -/
  fields : ∃ rest, text = g ++ (user ++ 0x3A :: rest) ∧ ∃ b ∈ rest, b ≠ 0x3A

/-- In a line, the delimiters are colons. -/
theorem isColonOrNewline_iff {text : List UInt8} (hline : 0x0A ∉ text) {b : UInt8}
    (hb : b ∈ text) : isColonOrNewline b = true ↔ b = 0x3A := by
  have hne : b ≠ 0x0A := fun h => hline (h ▸ hb)
  rw [isColonOrNewline, decide_eq_true_iff, or_iff_left hne]

theorem RecordBehind.name_clean {g text : List UInt8} (h : RecordBehind g user text)
    (hline : 0x0A ∉ text) : ∀ b ∈ user, isColonOrNewline b = false := by
  obtain ⟨rest, htext, -⟩ := h.fields
  intro b hb
  have hmem : b ∈ text := by
    rw [htext]
    exact List.mem_append_right _ (List.mem_append_left _ hb)
  rw [Bool.eq_false_iff, Ne, isColonOrNewline_iff hline hmem]
  rintro rfl
  exact h.name.2 hb

/-- Two words are a record. -/
theorem record_of_words {text hash : List UInt8} {ws : List (List UInt8)} (hline : 0x0A ∉ text)
    (h : words isColonOrNewline text = user :: hash :: ws) :
    RecordBehind (text.takeWhile isColonOrNewline) user text := by
  obtain ⟨hne, hclean⟩ := mem_words (h ▸ List.mem_cons_self : user ∈ words _ text)
  obtain ⟨tail, hdrop, htail, hstops⟩ := exists_of_words_eq_cons h
  have hsplit : text = text.takeWhile isColonOrNewline ++ (user ++ tail) := by
    rw [← hdrop, List.takeWhile_append_dropWhile]
  refine ⟨fun b hb => ?_, ⟨hne, fun hcolon => ?_⟩, ?_⟩
  · have hmem : b ∈ text := (List.takeWhile_prefix _).sublist.subset hb
    exact (isColonOrNewline_iff hline hmem).mp (List.mem_takeWhile_imp hb)
  · exact absurd (hclean _ hcolon) (by decide)
  · rcases tail with _ | ⟨d, rest⟩
    · exact absurd htail (by simp)
    · have hd : isColonOrNewline d = true := hstops d rfl
      have hmem : d ∈ text := by
        rw [hsplit]
        simp
      obtain rfl := (isColonOrNewline_iff hline hmem).mp hd
      refine ⟨rest, hsplit, ?_⟩
      by_contra hall
      rw [words_cons hd, words_eq_nil_iff.mpr] at htail
      · exact absurd htail (List.cons_ne_nil _ _).symm
      · intro b hb
        by_contra hb'
        exact hall ⟨b, hb, fun hcolon => hb' (by rw [hcolon]; rfl)⟩

/-- A record has two words at least. -/
theorem RecordBehind.two_words {g text : List UInt8} (h : RecordBehind g user text)
    (hline : 0x0A ∉ text) : ∃ hash ws, words isColonOrNewline text = user :: hash :: ws := by
  have hclean := h.name_clean hline
  obtain ⟨rest, htext, b, hb, hne⟩ := h.fields
  have hdelims : ∀ c ∈ g, isColonOrNewline c = true := fun c hc => by
    rw [h.colons c hc]
    rfl
  have hstops : Stops isColonOrNewline (0x3A :: rest) := fun d hd => by
    obtain rfl := Option.some.inj hd
    rfl
  have hmem : b ∈ text := by
    rw [htext]
    simp [hb]
  have hword : words isColonOrNewline rest ≠ [] := fun hnil =>
    hne ((isColonOrNewline_iff hline hmem).mp (words_eq_nil_iff.mp hnil b hb))
  obtain ⟨hash, ws, hwords⟩ := List.exists_cons_of_ne_nil hword
  refine ⟨hash, ws, ?_⟩
  rw [htext, words_delims_append hdelims, words_append h.name.1 hclean hstops, words_cons rfl,
    hwords]

/-- The colons in front of a record are all of them. -/
theorem RecordBehind.takeWhile {g text : List UInt8} (h : RecordBehind g user text)
    (hline : 0x0A ∉ text) (more : List UInt8) :
    (text ++ more).takeWhile isColonOrNewline = g := by
  have hclean := h.name_clean hline
  obtain ⟨rest, htext, -⟩ := h.fields
  have hdelims : ∀ c ∈ g, isColonOrNewline c = true := fun c hc => by
    rw [h.colons c hc]
    rfl
  obtain ⟨c, name, hname⟩ := List.exists_cons_of_ne_nil h.name.1
  have hc : isColonOrNewline c = false := hclean c (hname ▸ List.mem_cons_self)
  rw [htext, hname, List.append_assoc, List.takeWhile_append_of_pos hdelims, List.cons_append,
    List.cons_append, List.takeWhile_cons_of_neg (by simp [hc]), List.append_nil]

/-- A newline makes no word. -/
theorem words_cstr_newline (text : List UInt8) :
    words isColonOrNewline (cstr (text ++ [0x0A])) = words isColonOrNewline (cstr text) := by
  by_cases h : 0 ∈ text
  · rw [cstr_append_of_mem h]
  · have hnewline : 0 ∉ text ++ [0x0A] := fun hmem => by simp [h] at hmem
    rw [cstr_eq_self h, cstr_eq_self hnewline, words_append_cons rfl, words_nil, List.append_nil]

/-- **Which pieces are records.** -/
theorem names_piece_iff {room : ℕ} {text stop : List UInt8} (hstop : stop = [0x0A] ∨ stop = []) :
    Names user (chunk room text ++ stop) ↔ ∃ g, RecordBehind g user (cstr (chunk room text)) := by
  have hline : 0x0A ∉ cstr (chunk room text) := fun h =>
    newline_notMem_chunk room text ((List.takeWhile_prefix _).sublist.subset h)
  have hwords : words isColonOrNewline (cstr (chunk room text ++ stop)) =
      words isColonOrNewline (cstr (chunk room text)) := by
    rcases hstop with rfl | rfl
    · exact words_cstr_newline _
    · rw [List.append_nil]
  have hnames : Names user (chunk room text ++ stop) ↔
      ∃ hash ws, words isColonOrNewline (cstr (chunk room text)) = user :: hash :: ws := by
    rw [Names]
    simp only [tokens_eq, hwords]
    rcases words isColonOrNewline (cstr (chunk room text)) with _ | ⟨name, _ | ⟨hash, ws⟩⟩ <;> simp
  rw [hnames]
  constructor
  · rintro ⟨hash, ws, htwo⟩
    exact ⟨_, record_of_words hline htwo⟩
  · rintro ⟨g, hrecord⟩
    exact hrecord.two_words hline

/-- The place of a record. -/
theorem RecordBehind.takeWhile_piece {room : ℕ} {g text : List UInt8}
    (h : RecordBehind g user (cstr (chunk room text))) (stop : List UInt8) :
    (chunk room text ++ stop).takeWhile isColonOrNewline = g := by
  have hline : 0x0A ∉ cstr (chunk room text) := fun h =>
    newline_notMem_chunk room text ((List.takeWhile_prefix _).sublist.subset h)
  obtain ⟨more, hmore⟩ : cstr (chunk room text) <+: chunk room text := List.takeWhile_prefix _
  have htake := h.takeWhile hline (more ++ stop)
  rwa [← List.append_assoc, hmore] at htake

/-! ## Places -/

/-- If a piece is a record, one is found. -/
theorem exists_place {piece : List UInt8} (hnames : Names user piece) :
    ∀ {lines : List (List UInt8)} (before : List UInt8), piece ∈ lines →
      ∃ place, parseShadowPlace user before lines = some place
  | [], _, hmem => absurd hmem List.not_mem_nil
  | line :: lines, before, hmem => by
    by_cases h : Names user line
    · exact ⟨_, parseShadowPlace_names h before⟩
    · rw [(parseShadow_other h lines 0 before).2]
      rcases List.mem_cons.mp hmem with rfl | hmem
      · exact absurd hnames h
      · exact exists_place hnames _ hmem

variable {content : List UInt8}

/-- A record at the place of a piece is one of the pieces. -/
theorem names_of_record {before text g : List UInt8} (hcontent : content = before ++ text)
    (hcolumn : 1023 ∣ column before) (hrecord : RecordBehind g user (cstr (chunk 1023 text))) :
    ∃ front piece back, fgets 1024 content = front ++ piece :: back ∧ front.flatten = before ∧
      Names user piece := by
  have hne : text ≠ [] := by
    rintro rfl
    obtain ⟨rest, htext, -⟩ := hrecord.fields
    exact absurd htext.symm (by simp [chunk, cstr])
  have hplace : 1023 ∣ column ([] ++ before) := by rwa [List.nil_append]
  obtain ⟨front, stop, back, hread, hflat, hstop⟩ :=
    fgets_of_column (by decide) hne (Nat.dvd_zero 1023) hplace
  rw [← hcontent] at hread
  exact ⟨front, _, back, hread, hflat, (names_piece_iff hstop).mpr ⟨g, hrecord⟩⟩

/-- **What is found** is the first record at the place of a piece. -/
theorem place_first {place : List UInt8}
    (h : parseShadowPlace user [] (fgets 1024 content) = some place) :
    ∃ before text g, content = before ++ text ∧ 1023 ∣ column before ∧
      RecordBehind g user (cstr (chunk 1023 text)) ∧ place = before ++ g ∧
      ∀ before' text' g', content = before' ++ text' → 1023 ∣ column before' →
        before'.length < before.length → ¬RecordBehind g' user (cstr (chunk 1023 text')) := by
  obtain ⟨front, piece, back, hread, hfront, hnames, rfl⟩ :=
    (parseShadowPlace_eq_some_iff _ _).mp h
  have hstart : 1023 ∣ column [] := Nat.dvd_zero 1023
  obtain ⟨stop, text, hcontent, hcolumn, rfl, hstop, -⟩ :=
    fgets_split (by decide) front hstart hread
  obtain ⟨g, hrecord⟩ := (names_piece_iff hstop).mp hnames
  rw [List.nil_append] at hcolumn ⊢
  refine ⟨front.flatten, text, g, hcontent, hcolumn, hrecord, ?_, ?_⟩
  · rw [hrecord.takeWhile_piece]
  · intro before' text' g' hcontent' hcolumn' hlt hrecord'
    obtain ⟨front', piece', back', hread', rfl, hnames'⟩ :=
      names_of_record hcontent' hcolumn' hrecord'
    rcases List.append_eq_append_iff.mp (hread'.symm.trans hread) with
      ⟨between, rfl, hback⟩ | ⟨between, rfl, -⟩
    · rcases between with _ | ⟨p, between⟩
      · simp at hlt
      · obtain ⟨rfl, -⟩ := List.cons.inj hback
        exact hfront piece' (by simp) hnames'
    · rw [List.flatten_append, List.length_append] at hlt
      omega

/-- Colons are no newlines. -/
theorem RecordBehind.column {g text before : List UInt8} (h : RecordBehind g user text) :
    column (before ++ g) = column before + g.length :=
  column_append (fun hmem => absurd (h.colons _ hmem) (by decide)) before

/-- **When a record that is found begins a line**: when the first of the places where one can be
read does. -/
theorem parseShadowHash_line_iff (content user : List UInt8) (outLen : ℕ) :
    (((∃ hash, parseShadowHash (some content) user outLen = .found hash) →
        ∃ line ∈ content.splitOn 0x0A, user ++ [0x3A] <+: line) ∧
      ∀ place, parseShadowPlace user [] (fgets 1024 content) = some place → column place = 0) ↔
    ∀ before text g, content = before ++ text → 1023 ∣ column before →
      RecordBehind g user (cstr (chunk 1023 text)) → column (before ++ g) ≠ 0 →
        ∃ before' text', content = before' ++ text' ∧ before'.length < before.length ∧
          column before' = 0 ∧ RecordBehind [] user (cstr (chunk 1023 text')) := by
  constructor
  · rintro ⟨-, hplace⟩ before text g hcontent hcolumn hrecord hmiddle
    obtain ⟨front, piece, back, hread, -, hnames⟩ := names_of_record hcontent hcolumn hrecord
    obtain ⟨place, hsome⟩ := exists_place hnames [] (hread ▸ by simp : piece ∈ fgets 1024 content)
    obtain ⟨before', text', g', hcontent', -, hrecord', rfl, hfirst⟩ := place_first hsome
    have hzero := hplace _ hsome
    rw [hrecord'.column, Nat.add_eq_zero_iff] at hzero
    obtain ⟨hzero, hg⟩ := hzero
    obtain rfl := List.eq_nil_of_length_eq_zero hg
    refine ⟨before', text', hcontent', ?_, hzero, hrecord'⟩
    -- it is not behind the one in question, and not the same
    refine Nat.lt_of_le_of_ne (Nat.le_of_not_lt fun hlt => ?_) fun hlength => hmiddle ?_
    · exact hfirst before text g hcontent hcolumn hlt hrecord
    · obtain ⟨rfl, rfl⟩ := List.append_inj (hcontent'.symm.trans hcontent) hlength
      rw [hrecord.column, hzero, ← hrecord.takeWhile_piece [], hrecord'.takeWhile_piece]
      rfl
  · intro h
    have hplace : ∀ place, parseShadowPlace user [] (fgets 1024 content) = some place →
        column place = 0 := by
      intro place hsome
      obtain ⟨before, text, g, hcontent, hcolumn, hrecord, rfl, hfirst⟩ := place_first hsome
      by_contra hmiddle
      obtain ⟨before', text', hcontent', hlt, hzero, hrecord'⟩ :=
        h before text g hcontent hcolumn hrecord hmiddle
      exact hfirst before' text' [] hcontent' (hzero ▸ Nat.dvd_zero 1023) hlt hrecord'
    refine ⟨fun hhash => ?_, hplace⟩
    obtain ⟨place, hsome⟩ := (parseShadowPlace_iff user outLen _ []).mpr hhash
    obtain ⟨before, text, g, hcontent, -, hrecord, rfl, -⟩ := place_first hsome
    have hzero := hplace _ hsome
    rw [hrecord.column, Nat.add_eq_zero_iff] at hzero
    obtain rfl := List.eq_nil_of_length_eq_zero hzero.2
    refine ⟨_, hcontent ▸ line_mem_splitOn hzero.1 text, ?_⟩
    obtain ⟨rest, htext, -⟩ := hrecord.fields
    have hrecordText : user ++ [0x3A] <+: cstr (chunk 1023 text) :=
      ⟨rest, by rw [htext, List.nil_append, List.append_assoc, List.singleton_append]⟩
    have hchunk : cstr (chunk 1023 text) <+: chunk 1023 text := List.takeWhile_prefix _
    exact hrecordText.trans (hchunk.trans (List.take_prefix _ _))

/-- A record whose first field is empty. -/
theorem emptyName_found :
    parseShadowHash (some (lit ":alice:secret\n")) (lit "alice") 512 = .found (lit "secret") ∧
      ¬∃ line ∈ (lit ":alice:secret\n").splitOn 0x0A, lit "alice" ++ [0x3A] <+: line := by
  decide

end WaluOs
