import WaluOs.UnitFile

/-!
# What a unit file means

`assigned` reads a file line by line and carries the section along. Here the meaning is said of
the lines where they stand: the section of a line is that of the last header in front of it, and a
field has the value of the last line of its section with its key (`AssignsAt`).

For files whose lines and values fit, `parseUnitFile_meaning` says that `parse_unit_file` fails
exactly at a header that does not end, and otherwise leaves in each field what the file means.
-/

namespace WaluOs

open CStrings

/-! ## Lines -/

/-- The first character of a line that is no blank. It decides what kind of line it is. -/
def firstChar (line : List UInt8) : Option UInt8 := (line.dropWhile isBlank).head?

/-- The line says nothing: it is blank, or a comment. -/
def IsRemark (line : List UInt8) : Prop :=
  firstChar line = none ∨ firstChar line = some 0x23 ∨ firstChar line = some 0x3B

/-- The line begins with `[`, after blanks. Such a line opens a section if there is a `]` in it,
and is malformed otherwise; it never assigns a field. -/
def IsHeader (line : List UInt8) : Prop := firstChar line = some 0x5B

instance (line : List UInt8) : Decidable (IsRemark line) := inferInstanceAs (Decidable (_ ∨ _))

instance (line : List UInt8) : Decidable (IsHeader line) := inferInstanceAs (Decidable (_ = _))

/-- The section that a line begins: the text between `[` and the first `]`. -/
def headerOf (line : List UInt8) : Option (List UInt8) :=
  if IsHeader line ∧ 0x5D ∈ line then
    some (((line.dropWhile isBlank).drop 1).takeWhile fun c => c ≠ 0x5D)
  else none

/-- The key and the value that a line assigns: the texts before and behind the first `=`. -/
def assignmentOf (line : List UInt8) : Option (List UInt8 × List UInt8) :=
  if ¬IsRemark line ∧ ¬IsHeader line ∧ 0x3D ∈ line then
    some (trim isBlank (line.takeWhile fun c => c ≠ 0x3D),
      trim isBlank ((line.dropWhile fun c => c ≠ 0x3D).drop 1))
  else none

/-- A line begins where its first character stands. -/
theorem dropWhile_of_firstChar {line : List UInt8} {c : UInt8} (h : firstChar line = some c) :
    ∃ t, line.dropWhile isBlank = c :: t ∧ isBlank c = false ∧
      trim isBlank line = c :: t.rdropWhile isBlank := by
  obtain ⟨t, ht⟩ := List.head?_eq_some_iff.mp h
  have hc : isBlank c = false := by
    have hfirst := List.head?_dropWhile_not isBlank line
    rw [ht] at hfirst
    simpa using hfirst
  refine ⟨t, ht, hc, ?_⟩
  have htrim := trim_append_cons hc [] t
  rwa [List.nil_append, ← ht, trim_dropWhile] at htrim

theorem head?_trim (line : List UInt8) : (trim isBlank line).head? = firstChar line := by
  cases h : firstChar line with
  | none =>
    have hnil : line.dropWhile isBlank = [] := List.head?_eq_none_iff.mp h
    rw [← trim_dropWhile, hnil]
    rfl
  | some c =>
    obtain ⟨t, -, -, htrim⟩ := dropWhile_of_firstChar h
    rw [htrim]
    rfl

/-- Trimming takes away blanks only. -/
theorem mem_trim_iff {c : UInt8} (hc : isBlank c = false) (line : List UInt8) :
    c ∈ trim isBlank line ↔ c ∈ line := by
  refine ⟨mem_of_mem_trim, fun h => ?_⟩
  obtain ⟨u, w, rfl⟩ := List.append_of_mem h
  rw [trim_append_cons hc]
  exact List.mem_append_right _ List.mem_cons_self

theorem trim_rdropWhile (s : List UInt8) :
    trim isBlank (s.rdropWhile isBlank) = trim isBlank s := by
  have hblanks : ∀ b ∈ s.rtakeWhile isBlank, isBlank b = true :=
    fun _ hb => List.mem_rtakeWhile_imp hb
  rw [← trim_append_blanks hblanks (s.rdropWhile isBlank), List.rdropWhile_append_rtakeWhile]

/-- The key and the value are those of the trimmed line. -/
theorem trim_parts {line : List UInt8} (h : 0x3D ∈ line) :
    trim isBlank ((trim isBlank line).takeWhile fun c => c ≠ 0x3D) =
        trim isBlank (line.takeWhile fun c => c ≠ 0x3D) ∧
      trim isBlank (((trim isBlank line).dropWhile fun c => c ≠ 0x3D).drop 1) =
        trim isBlank ((line.dropWhile fun c => c ≠ 0x3D).drop 1) := by
  obtain ⟨u, w, rfl, hu⟩ := List.eq_append_cons_of_mem h
  have hu' : 0x3D ∉ u.dropWhile isBlank := fun hmem =>
    hu ((List.dropWhile_suffix _).sublist.subset hmem)
  rw [trim_append_cons (by decide), (cut_append_cons hu' _).1, (cut_append_cons hu' _).2,
    (cut_append_cons hu w).1, (cut_append_cons hu w).2, trim_dropWhile, trim_rdropWhile]
  exact ⟨rfl, rfl⟩

/-- And so is the section. -/
theorem trim_section {line : List UInt8} (hheader : IsHeader line) (h : 0x5D ∈ line) :
    ((trim isBlank line).takeWhile fun c => c ≠ 0x5D).drop 1 =
      ((line.dropWhile isBlank).drop 1).takeWhile fun c => c ≠ 0x5D := by
  obtain ⟨t, hdrop, -, htrim⟩ := dropWhile_of_firstChar hheader
  have hend : 0x5D ∈ t := by
    have hmem := (mem_trim_iff (by decide) line).mpr h
    rw [← trim_dropWhile, hdrop] at hmem
    exact (List.mem_cons.mp (mem_of_mem_trim hmem)).resolve_left (by decide)
  obtain ⟨u, w, rfl, hu⟩ := List.eq_append_cons_of_mem hend
  have hcut := (cut_append_cons hu (w.rdropWhile isBlank)).1
  rw [htrim, hdrop, rdropWhile_append_cons (by decide), List.takeWhile_cons_of_pos (by decide),
    List.drop_succ_cons, List.drop_zero, hcut, List.drop_succ_cons, List.drop_zero,
    (cut_append_cons hu w).1]

/-- **What is read of a line.** -/
theorem readUnitLine_eq (line : List UInt8) :
    readUnitLine line =
      if IsRemark line then .skipped
      else if IsHeader line then
        if 0x5D ∈ line then
          .header (((line.dropWhile isBlank).drop 1).takeWhile fun c => c ≠ 0x5D)
        else .malformed
      else if 0x3D ∈ line then
        .assignment (trim isBlank (line.takeWhile fun c => c ≠ 0x3D))
          (trim isBlank ((line.dropWhile fun c => c ≠ 0x3D).drop 1))
      else .skipped := by
  have hremark : (trim isBlank line = [] ∨ (trim isBlank line).head? = some 0x23 ∨
      (trim isBlank line).head? = some 0x3B) ↔ IsRemark line := by
    rw [← List.head?_eq_none_iff, head?_trim]
    rfl
  have hheader : (trim isBlank line).head? = some 0x5B ↔ IsHeader line := by
    rw [head?_trim]
    rfl
  rw [readUnitLine, readTrimmed]
  simp only [hremark, hheader, mem_trim_iff (c := 0x5D) rfl, mem_trim_iff (c := 0x3D) rfl]
  split_ifs with h1 h2 h3 h4
  · rfl
  · rw [trim_section h2 h3]
  · rfl
  · rw [(trim_parts h4).1, (trim_parts h4).2]
  · rfl

/-- A header is no remark. -/
theorem IsHeader.not_remark {line : List UInt8} (h : IsHeader line) : ¬IsRemark line := by
  intro hremark
  rw [IsRemark, show firstChar line = some 0x5B from h] at hremark
  exact absurd hremark (by decide)

theorem readUnitLine_malformed_iff (line : List UInt8) :
    readUnitLine line = .malformed ↔ IsHeader line ∧ 0x5D ∉ line := by
  rw [readUnitLine_eq]
  by_cases hheader : IsHeader line
  · rw [if_neg hheader.not_remark, if_pos hheader]
    by_cases hend : 0x5D ∈ line
    · simp [hend]
    · simp [hheader, hend]
  · rw [if_neg hheader]
    split_ifs <;> simp [hheader]

theorem readUnitLine_header_iff (line name : List UInt8) :
    readUnitLine line = .header name ↔ headerOf line = some name := by
  rw [readUnitLine_eq, headerOf]
  by_cases hheader : IsHeader line
  · rw [if_neg hheader.not_remark, if_pos hheader]
    by_cases hend : 0x5D ∈ line
    · rw [if_pos hend, if_pos ⟨hheader, hend⟩, Option.some.injEq, UnitLine.header.injEq]
    · rw [if_neg hend, if_neg fun h => hend h.2]
      simp
  · have hnone : ¬(IsHeader line ∧ 0x5D ∈ line) := fun h => hheader h.1
    rw [if_neg hheader, if_neg hnone]
    split_ifs <;> simp

theorem readUnitLine_assignment_iff (line key value : List UInt8) :
    readUnitLine line = .assignment key value ↔ assignmentOf line = some (key, value) := by
  rw [readUnitLine_eq, assignmentOf]
  by_cases hassign : ¬IsRemark line ∧ ¬IsHeader line ∧ 0x3D ∈ line
  · obtain ⟨hremark, hheader, hequals⟩ := hassign
    rw [if_neg hremark, if_neg hheader, if_pos hequals, if_pos ⟨hremark, hheader, hequals⟩,
      Option.some.injEq, UnitLine.assignment.injEq, Prod.mk.injEq]
  · rw [if_neg hassign]
    split_ifs with hremark hheader hend hequals
    · simp
    · simp
    · simp
    · exact absurd ⟨hremark, hheader, hequals⟩ hassign
    · simp

/-! ## Where lines stand -/

/-- The section behind these lines, if `current` is the section in front of them. -/
def sectionBehind (current : List UInt8) (lines : List (List UInt8)) : List UInt8 :=
  ((lines.filterMap headerOf).getLast?).getD current

/-- The line with this number assigns `value` to a key of a section. The section is the one that
the lines before have opened last, so this says what a line means without running the parser. -/
def AssignsAt (inSection key : List UInt8) (lines : List (List UInt8)) (n : ℕ)
    (value : List UInt8) : Prop :=
  ∃ line, lines[n]? = some line ∧ sectionBehind [] (lines.take n) = inSection ∧
    assignmentOf line = some (key, value)

variable {inSection key : List UInt8}

theorem sectionBehind_cons (current line : List UInt8) (lines : List (List UInt8)) :
    sectionBehind current (line :: lines) =
      sectionBehind ((headerOf line).getD current) lines := by
  rw [sectionBehind, sectionBehind, List.filterMap_cons]
  cases headerOf line with
  | none => rfl
  | some name =>
    rw [List.getLast?_cons]
    cases (lines.filterMap headerOf).getLast? <;> rfl

/-- Line by line, with the section carried along. -/
theorem assigned_cons (current line : List UInt8) (lines : List (List UInt8)) :
    assigned inSection key current (line :: lines) =
      assigned inSection key current [line] ++
        assigned inSection key ((headerOf line).getD current) lines := by
  have hheader := readUnitLine_header_iff line
  have hnone : (∀ name, readUnitLine line ≠ .header name) → headerOf line = none := fun h =>
    Option.eq_none_iff_forall_ne_some.mpr fun name hname => h name ((hheader name).mpr hname)
  rw [assigned, assigned]
  cases hline : readUnitLine line with
  | header name =>
    rw [(hheader name).mp hline]
    rfl
  | skipped =>
    rw [hnone fun name => by simp [hline]]
    rfl
  | malformed =>
    rw [hnone fun name => by simp [hline]]
    rfl
  | assignment key' value =>
    rw [hnone fun name => by simp [hline]]
    dsimp only
    split_ifs <;> rfl

theorem assigned_append (front back : List (List UInt8)) (current : List UInt8) :
    assigned inSection key current (front ++ back) =
      assigned inSection key current front ++
        assigned inSection key (sectionBehind current front) back := by
  induction front generalizing current with
  | nil => rfl
  | cons line front ih =>
    rw [List.cons_append, assigned_cons, ih, assigned_cons current line front, sectionBehind_cons,
      List.append_assoc]

theorem mem_assigned_singleton (inSection key current line value : List UInt8) :
    value ∈ assigned inSection key current [line] ↔
      current = inSection ∧ assignmentOf line = some (key, value) := by
  rw [← readUnitLine_assignment_iff, assigned]
  cases readUnitLine line with
  | assignment key' value' =>
    dsimp only
    rw [UnitLine.assignment.injEq]
    split_ifs with hnames
    · obtain ⟨hsection, hkey⟩ := hnames
      simp [assigned, hsection, hkey, eq_comm]
    · simp only [assigned, List.not_mem_nil, false_iff]
      exact fun h => hnames ⟨h.1, h.2.1⟩
  | _ => simp [assigned]

theorem length_assigned_singleton (inSection key current line : List UInt8) :
    (assigned inSection key current [line]).length ≤ 1 := by
  rw [assigned]
  cases readUnitLine line with
  | assignment key' value' =>
    dsimp only
    split_ifs <;> simp [assigned]
  | _ => simp [assigned]

theorem AssignsAt.lt {lines : List (List UInt8)} {n : ℕ} {value : List UInt8}
    (h : AssignsAt inSection key lines n value) : n < lines.length := by
  obtain ⟨line, hline, -⟩ := h
  exact (List.getElem?_eq_some_iff.mp hline).1

/-- The lines of a file, and the one behind them. -/
theorem assignsAt_concat (lines : List (List UInt8)) (line : List UInt8) (n : ℕ)
    (value : List UInt8) :
    AssignsAt inSection key (lines ++ [line]) n value ↔
      AssignsAt inSection key lines n value ∨
        n = lines.length ∧ sectionBehind [] lines = inSection ∧
          assignmentOf line = some (key, value) := by
  rcases Nat.lt_trichotomy n lines.length with hlt | rfl | hgt
  · have hne : n ≠ lines.length := Nat.ne_of_lt hlt
    simp only [AssignsAt, List.getElem?_append_left hlt, List.take_append_of_le_length hlt.le, hne,
      false_and, or_false]
  · have hlines : ¬AssignsAt inSection key lines lines.length value := fun h =>
      Nat.lt_irrefl _ h.lt
    rw [or_iff_right hlines]
    simp only [true_and, AssignsAt, List.getElem?_concat_length, List.take_left,
      Option.some.injEq, exists_eq_left']
  · have hne : n ≠ lines.length := Nat.ne_of_gt hgt
    constructor
    · intro h
      have hlt := h.lt
      rw [List.length_append, List.length_singleton] at hlt
      omega
    · rintro (h | h)
      · exact absurd h.lt (Nat.lt_asymm hgt)
      · exact absurd h.1 hne

/-- **The last value of a key is that of the last line that assigns it.** -/
theorem lastAssigned_at (inSection key : List UInt8) (lines : List (List UInt8)) :
    (∀ value, (assigned inSection key [] lines).getLast? = some value →
      ∃ n, AssignsAt inSection key lines n value ∧
        ∀ m other, AssignsAt inSection key lines m other → m ≤ n) ∧
    ((assigned inSection key [] lines).getLast? = none →
      ∀ n value, ¬AssignsAt inSection key lines n value) := by
  induction lines using List.reverseRecOn with
  | nil =>
    refine ⟨fun value h => absurd h (by simp [assigned]), fun _ n value h => ?_⟩
    exact absurd h.lt (Nat.not_lt_zero n)
  | append_singleton lines line ih =>
    rw [assigned_append]
    have hmem := mem_assigned_singleton inSection key (sectionBehind [] lines) line
    have hlength := length_assigned_singleton inSection key (sectionBehind [] lines) line
    generalize assigned inSection key (sectionBehind [] lines) [line] = own at *
    simp only [assignsAt_concat]
    rcases own with _ | ⟨last, own⟩
    · -- the line assigns nothing
      have hother : ∀ value, ¬(sectionBehind [] lines = inSection ∧
          assignmentOf line = some (key, value)) := fun value h =>
        absurd ((hmem value).mpr h) List.not_mem_nil
      rw [List.append_nil]
      refine ⟨fun value h => ?_, fun h n value hn => ?_⟩
      · obtain ⟨n, hn, hlast⟩ := ih.1 value h
        refine ⟨n, Or.inl hn, fun m other hm => ?_⟩
        exact hm.elim (hlast m other) fun h => absurd h.2 (hother other)
      · exact hn.elim (ih.2 h n value) fun h => hother value h.2
    · -- it assigns one value
      obtain rfl : own = [] := List.eq_nil_of_length_eq_zero (by simpa using hlength)
      have hlast : (assigned inSection key [] lines ++ [last]).getLast? = some last :=
        List.getLast?_concat
      rw [hlast]
      refine ⟨fun value h => ?_, fun h => absurd h (Option.some_ne_none _)⟩
      obtain rfl := Option.some.inj h
      refine ⟨lines.length, Or.inr ⟨rfl, (hmem last).mp (List.mem_singleton_self _)⟩, ?_⟩
      intro m other hm
      exact hm.elim (fun h => h.lt.le) fun h => h.1.le

/-! ## What is parsed -/

/-- The loop stops at a header that does not end, and nowhere else. -/
theorem parseUnitLoop_fails_iff (lines : List (List UInt8)) :
    ∀ (lineNo : ℕ) (st : UnitParse), (∀ line ∈ lines, 0 ∉ line) →
      ((∃ n, parseUnitLoop lineNo st lines = .error n) ↔
        ∃ line ∈ lines, readUnitLine line = .malformed) := by
  induction lines with
  | nil =>
    intro lineNo st _
    simp [parseUnitLoop]
  | cons line lines ih =>
    intro lineNo st hzero
    obtain ⟨hline, hzero⟩ := List.forall_mem_cons.mp hzero
    rw [parseUnitLoop, parseUnitLine_eq, cstr_eq_self hline]
    cases hread : readUnitLine line with
    | malformed =>
      exact ⟨fun _ => ⟨line, List.mem_cons_self, hread⟩, fun _ => ⟨lineNo + 1, rfl⟩⟩
    | _ =>
      refine (ih (lineNo + 1) _ hzero).trans ?_
      simp [hread]

/-- A byte of a line is one of the file. -/
theorem mem_content_of_mem_line {content line : List UInt8} (hline : line ∈ content.splitOn 0x0A)
    {b : UInt8} (hb : b ∈ line) : b ∈ content := by
  rw [List.splitOn_eq_splitOnP] at hline
  have hmem := List.mem_flatten.mpr ⟨line, hline, hb⟩
  rw [flatten_splitOnP] at hmem
  exact (List.mem_filter.mp hmem).1

theorem AssignsAt.unique {lines : List (List UInt8)} {n : ℕ} {value other : List UInt8}
    (h : AssignsAt inSection key lines n value) (h' : AssignsAt inSection key lines n other) :
    value = other := by
  obtain ⟨line, hline, -, hassign⟩ := h
  obtain ⟨line', hline', -, hassign'⟩ := h'
  obtain rfl := Option.some.inj (hline.symm.trans hline')
  exact (Prod.mk.inj (Option.some.inj (hassign.symm.trans hassign'))).2

/-- A value is a part of its line, without blanks at its ends. -/
theorem AssignsAt.value {lines : List (List UInt8)} {n : ℕ} {value : List UInt8}
    (h : AssignsAt inSection key lines n value) :
    trim isBlank value = value ∧ ∃ line ∈ lines, value.Sublist line := by
  obtain ⟨line, hline, -, hassign⟩ := h
  rw [assignmentOf] at hassign
  split_ifs at hassign
  obtain ⟨-, rfl⟩ := Prod.mk.inj (Option.some.inj hassign)
  refine ⟨trim_trim _, line, List.mem_of_getElem? hline, ?_⟩
  exact (trim_isInfix _).sublist.trans
    ((List.drop_suffix 1 _).sublist.trans (List.dropWhile_suffix _).sublist)

/-- A value that fits is left as it is. -/
theorem AssignsAt.copied {content : List UInt8} {n size : ℕ} {value : List UInt8}
    (h : AssignsAt inSection key (content.splitOn 0x0A) n value) (hzero : 0 ∉ content)
    (hfits : value.length < size) : snprintf size (trim isBlank (cstr value)) = value := by
  obtain ⟨htrim, line, hline, hpart⟩ := h.value
  have hvalue : 0 ∉ value := fun hmem =>
    hzero (mem_content_of_mem_line hline (hpart.subset hmem))
  rw [cstr_eq_self hvalue, htrim, snprintf, List.take_of_length_le (by omega)]

/-- **`parse_unit_file` parses what the file means**: it fails exactly at a header that does not
end, and otherwise each field has the value of the last line that assigns it. -/
theorem parseUnitFile_meaning (path content : List UInt8) (hzero : 0 ∉ content)
    (hlines : ∀ line ∈ content.splitOn 0x0A, line.length ≤ 510)
    (hfits : ∀ (f : UnitField) (n : ℕ) (value : List UInt8),
      AssignsAt f.inSection f.key (content.splitOn 0x0A) n value → value.length < f.size) :
    ((∃ complaint, parseUnitFile path (some content) = .error complaint) ↔
      ∃ line ∈ content.splitOn 0x0A, IsHeader line ∧ 0x5D ∉ line) ∧
    ∀ unit, parseUnitFile path (some content) = .ok unit → ∀ f : UnitField,
      (∀ n value, AssignsAt f.inSection f.key (content.splitOn 0x0A) n value →
        (∀ m other, AssignsAt f.inSection f.key (content.splitOn 0x0A) m other → m ≤ n) →
          unit.get f = value) ∧
      ((∀ n value, ¬AssignsAt f.inSection f.key (content.splitOn 0x0A) n value) →
        unit.get f = []) := by
  have hbound : ∀ line ∈ content.splitOn 0x0A, line.length < 511 := fun line hline =>
    Nat.lt_succ_of_le (hlines line hline)
  have hzeros : ∀ line ∈ content.splitOn 0x0A, 0 ∉ line := fun line hline hmem =>
    hzero (mem_content_of_mem_line hline hmem)
  constructor
  · simp only [← readUnitLine_malformed_iff]
    rw [← parseUnitLoop_fails_iff _ 0 unitStart hzeros, ← parseUnitLoop_fgets 0 unitStart hbound,
      parseUnitFile]
    cases parseUnitLoop 0 unitStart (fgets 512 content) <;> simp [Except.mapError]
  · intro unit hparse f
    have hget := parseUnitFile_get hbound hparse f
    obtain ⟨hsome, hnone⟩ := lastAssigned_at f.inSection f.key (content.splitOn 0x0A)
    rw [← lastAssigned] at hsome hnone
    cases hlast : lastAssigned f.inSection f.key content with
    | none =>
      rw [hlast] at hget
      exact ⟨fun n value hn _ => absurd hn (hnone hlast n value), fun _ => hget⟩
    | some last =>
      obtain ⟨m, hm, hmmax⟩ := hsome last hlast
      rw [hlast, Option.map_some, Option.getD_some, hm.copied hzero (hfits f m last hm)] at hget
      refine ⟨fun n value hn hmax => ?_, fun hno => absurd hm (hno m last)⟩
      obtain rfl : m = n := Nat.le_antisymm (hmax m last hm) (hmmax n value hn)
      exact hget.trans (hm.unique hn)

/-- A description that is said twice, with `=` in it. -/
def twiceDescribed : List UInt8 :=
  lit "[Unit]\nDescription=a\n; none=\n [Unit]\n Description = b=[c]\n"

theorem parseUnitFile_meaning_twice :
    ∃ unit, parseUnitFile (lit "web.service") (some twiceDescribed) = .ok unit ∧
      unit.get .description = lit "b=[c]" := by
  have hshort : ∀ line ∈ twiceDescribed.splitOn 0x0A, line.length ≤ 31 := by decide +kernel
  have hfits : ∀ (f : UnitField) (n : ℕ) (value : List UInt8),
      AssignsAt f.inSection f.key (twiceDescribed.splitOn 0x0A) n value →
        value.length < f.size := by
    intro f n value h
    obtain ⟨-, line, hline, hpart⟩ := h.value
    have hlength := hpart.length_le
    have hline := hshort line hline
    have hsize : 32 ≤ f.size := by cases f <;> decide
    omega
  have hmeaning := parseUnitFile_meaning (lit "web.service") twiceDescribed (by decide +kernel)
    (fun line hline => (hshort line hline).trans (by decide)) hfits
  have hends : ¬∃ line ∈ twiceDescribed.splitOn 0x0A, IsHeader line ∧ 0x5D ∉ line := by
    decide +kernel
  cases hparse : parseUnitFile (lit "web.service") (some twiceDescribed) with
  | error complaint => exact absurd (hmeaning.1.mp ⟨complaint, hparse⟩) hends
  | ok unit =>
    have hlast : AssignsAt (lit "Unit") (lit "Description") (twiceDescribed.splitOn 0x0A) 4
        (lit "b=[c]") := ⟨_, rfl, by decide +kernel, by decide +kernel⟩
    refine ⟨unit, rfl, ((hmeaning.2 unit hparse) .description).1 4 (lit "b=[c]") hlast ?_⟩
    intro m other hm
    have hlt := hm.lt
    -- the last of the lines is empty
    have hne : m ≠ 5 := by
      rintro rfl
      obtain ⟨line, hline, -, hassign⟩ := hm
      obtain rfl : [] = line := Option.some.inj hline
      have hnone : assignmentOf [] = none := by decide
      exact Option.some_ne_none _ (hassign.symm.trans hnone)
    have hlines : (twiceDescribed.splitOn 0x0A).length = 6 := by decide +kernel
    omega

end WaluOs
