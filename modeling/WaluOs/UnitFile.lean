import WaluOs.Walud

/-!
# Unit files

A unit file is sections of assignments, and the last assignment of a key in its section is
the one that counts: `assigned` is that reading, over whole lines of any content.
`parse_unit_file` reads lines into a buffer, cuts a line at a NUL byte, and cuts a value
where its field is full.

For lines that fit the buffer, `parseUnitFile_get` says what is left of a value, and
`startUnit_execStart_iff` when all of `ExecStart` is executed.
-/

namespace WaluOs

open CStrings

/-! ## What a unit file says -/

/-- What a line of a unit file says, by the rules of the format and without any limit of the code.
-/
inductive UnitLine : Type where
  /-- nothing: it is blank, or a comment, or no assignment -/
  | skipped : UnitLine
  /-- the header of a section -/
  | header : List UInt8 → UnitLine
  /-- a header that does not end -/
  | malformed : UnitLine
  /-- a key and its value -/
  | assignment : List UInt8 → List UInt8 → UnitLine
  deriving DecidableEq, Repr

/-- A line without the blanks at its ends, read. -/
def readTrimmed (p : List UInt8) : UnitLine :=
  if p = [] ∨ p.head? = some 0x23 ∨ p.head? = some 0x3B then .skipped
  else if p.head? = some 0x5B then
    if 0x5D ∈ p then .header ((p.takeWhile fun c => c ≠ 0x5D).drop 1) else .malformed
  else if 0x3D ∈ p then
    .assignment (trim isBlank (p.takeWhile fun c => c ≠ 0x3D))
      (trim isBlank ((p.dropWhile fun c => c ≠ 0x3D).drop 1))
  else .skipped

/-- A line, read. -/
def readUnitLine (line : List UInt8) : UnitLine := readTrimmed (trim isBlank line)

/-- The values that a key of a section is assigned in these lines, which begin in the section
`current`. -/
def assigned (inSection key : List UInt8) : List UInt8 → List (List UInt8) → List (List UInt8)
  | _, [] => []
  | current, line :: lines =>
    match readUnitLine line with
    | .header name => assigned inSection key name lines
    | .assignment key' value =>
      if current = inSection ∧ key' = key then value :: assigned inSection key current lines
      else assigned inSection key current lines
    | _ => assigned inSection key current lines

/-- The last value that a key of a section is assigned. It is what a file means for a field:
earlier assignments are overwritten. -/
def lastAssigned (inSection key content : List UInt8) : Option (List UInt8) :=
  (assigned inSection key [] (content.splitOn 0x0A)).getLast?

/-! ## Fields -/

/-- The fields of `unit_service_t`. Statements about all of them take the field as an argument. -/
inductive UnitField : Type where
  | description | after | requires | execStart | user | restart | wantedBy
  deriving DecidableEq, Repr

/-- The section in which a field is assigned; elsewhere its key means nothing. -/
def UnitField.inSection : UnitField → List UInt8
  | .description | .after | .requires => lit "Unit"
  | .execStart | .user | .restart => lit "Service"
  | .wantedBy => lit "Install"

/-- The key of a field, which is matched exactly. -/
def UnitField.key : UnitField → List UInt8
  | .description => lit "Description"
  | .after => lit "After"
  | .requires => lit "Requires"
  | .execStart => lit "ExecStart"
  | .user => lit "User"
  | .restart => lit "Restart"
  | .wantedBy => lit "WantedBy"

/-- The size of the buffer of a field, of which the last byte is for the NUL. -/
def UnitField.size : UnitField → ℕ
  | .description | .after | .requires => 128
  | .execStart => 256
  | .user | .wantedBy => 64
  | .restart => 32

/-- The content of a field. -/
def UnitService.get (unit : UnitService) : UnitField → List UInt8
  | .description => unit.description
  | .after => unit.after
  | .requires => unit.requires
  | .execStart => unit.execStart
  | .user => unit.user
  | .restart => unit.restart
  | .wantedBy => unit.wantedBy

/-- Another content of a field. -/
def UnitService.put (unit : UnitService) (content : List UInt8) : UnitField → UnitService
  | .description => { unit with description := content }
  | .after => { unit with after := content }
  | .requires => { unit with requires := content }
  | .execStart => { unit with execStart := content }
  | .user => { unit with user := content }
  | .restart => { unit with restart := content }
  | .wantedBy => { unit with wantedBy := content }

theorem get_put (unit : UnitService) (content : List UInt8) (f g : UnitField) :
    (unit.put content g).get f = if g = f then content else unit.get f := by
  cases g <;> cases f <;> rfl

/-- A field is named by its section and its key. -/
theorem eq_of_names : ∀ f g : UnitField, f.inSection = g.inSection → f.key = g.key → f = g := by
  intro f g
  cases f <;> cases g <;> decide

/-- The assignment of a field. -/
theorem assign_field (unit : UnitService) (value : List UInt8) (f : UnitField) :
    unit.assign f.inSection f.key value = unit.put (snprintf f.size value) f := by
  cases f <;> rfl

/-- The assignment of something else. -/
theorem assign_other (unit : UnitService) {inSection key : List UInt8} (value : List UInt8)
    (h : ∀ f : UnitField, ¬(inSection = f.inSection ∧ key = f.key)) :
    unit.assign inSection key value = unit := by
  rw [UnitService.assign]
  split_ifs with hunit hdescription hafter hrequires hservice hexec huser hrestart hinstall hwanted
  · exact absurd ⟨hunit, hdescription⟩ (h .description)
  · exact absurd ⟨hunit, hafter⟩ (h .after)
  · exact absurd ⟨hunit, hrequires⟩ (h .requires)
  · rfl
  · exact absurd ⟨hservice, hexec⟩ (h .execStart)
  · exact absurd ⟨hservice, huser⟩ (h .user)
  · exact absurd ⟨hservice, hrestart⟩ (h .restart)
  · rfl
  · exact absurd ⟨hinstall, hwanted⟩ (h .wantedBy)
  · rfl
  · rfl

/-- **What an assignment does** to a field. -/
theorem assign_get (unit : UnitService) (inSection key value : List UInt8) (f : UnitField) :
    (unit.assign inSection key value).get f =
      if inSection = f.inSection ∧ key = f.key then snprintf f.size value else unit.get f := by
  by_cases h : ∃ g : UnitField, inSection = g.inSection ∧ key = g.key
  · obtain ⟨g, rfl, rfl⟩ := h
    rw [assign_field, get_put]
    by_cases hg : g = f
    · subst hg
      rw [if_pos rfl, if_pos ⟨rfl, rfl⟩]
    · rw [if_neg hg, if_neg fun hnames => hg (eq_of_names g f hnames.1 hnames.2)]
  · rw [assign_other unit value (not_exists.mp h), if_neg (not_exists.mp h f)]

/-! ## Lines -/

/-- What the loop does with what it has read. -/
def UnitParse.read (st : UnitParse) : UnitLine → Option UnitParse
  | .skipped => some st
  | .header name => some { st with inSection := snprintf 32 name }
  | .malformed => none
  | .assignment key value => some { st with unit := st.unit.assign st.inSection key value }

theorem parseUnitLine_eq (st : UnitParse) (line : List UInt8) :
    parseUnitLine st line = st.read (readUnitLine (cstr line)) := by
  rw [parseUnitLine, readUnitLine, readTrimmed]
  split_ifs <;> rfl

/-- Blanks at the end do not matter. -/
theorem readUnitLine_concat {b : UInt8} (hb : isBlank b = true) (line : List UInt8) :
    readUnitLine (line ++ [b]) = readUnitLine line := by
  rw [readUnitLine, trim_concat hb, ← readUnitLine]

/-! ## NUL bytes -/

/-- What is read of a line that says something, if the line ends at its first NUL byte. `fgets`
reads on to the newline, and the string functions stop at the NUL. -/
inductive CutsTo : UnitLine → UnitLine → Prop where
  /-- nothing of nothing -/
  | skipped : CutsTo .skipped .skipped
  /-- a header that ends before -/
  | header (name : List UInt8) : CutsTo (.header name) (.header name)
  /-- a header that does not end before -/
  | malformed (said : UnitLine) : CutsTo said .malformed
  /-- a key that does not end before -/
  | lost {key : List UInt8} (hkey : 0 ∈ key) (value : List UInt8) :
    CutsTo (.assignment key value) .skipped
  /-- a part of the value -/
  | assignment (key value : List UInt8) :
    CutsTo (.assignment key value) (.assignment key (trim isBlank (cstr value)))

/-- What is left of a string is in it. -/
theorem mem_of_mem_trim {c : UInt8} {s : List UInt8} (h : c ∈ trim isBlank s) : c ∈ s :=
  (trim_isInfix s).sublist.subset h

/-- A NUL byte is no blank. -/
theorem zero_mem_trim {s : List UInt8} (h : 0 ∈ s) : 0 ∈ trim isBlank s := by
  obtain ⟨a, b, rfl⟩ := List.append_of_mem h
  rw [trim_append_cons (by decide)]
  exact List.mem_append_right _ List.mem_cons_self

/-- A value that is not cut. -/
theorem trim_cstr_trim {s : List UInt8} (h : 0 ∉ s) :
    trim isBlank (cstr (trim isBlank s)) = trim isBlank s := by
  rw [cstr_eq_self (mt mem_of_mem_trim h), trim_trim]

/-- A value that is cut. -/
theorem trim_cstr_cut {w g : List UInt8} (hw : 0 ∉ w) (hg : ∀ b ∈ g, isBlank b = true)
    (t : List UInt8) :
    trim isBlank (cstr (trim isBlank (w ++ (g ++ 0 :: t)))) = trim isBlank w := by
  have hzero : 0 ∉ (w ++ g).dropWhile isBlank := fun h => by
    rcases List.mem_append.mp ((List.dropWhile_suffix _).sublist.subset h) with h | h
    · exact hw h
    · exact absurd (hg 0 h) (by decide)
  rw [← List.append_assoc, trim_append_cons (by decide), cstr_append_cons hzero, trim_dropWhile,
    trim_append_blanks hg]

/-- What a line says that is cut nowhere. -/
theorem readTrimmed_self {p : List UInt8} (hp : 0 ∉ p) :
    CutsTo (readTrimmed p) (readTrimmed p) := by
  rw [readTrimmed]
  split_ifs with hskip hheader hend hassign
  · exact .skipped
  · exact .header _
  · exact .malformed _
  · obtain ⟨u, w, rfl, hu⟩ := List.eq_append_cons_of_mem hassign
    obtain ⟨hkey, hvalue⟩ := cut_append_cons hu w
    have hw : 0 ∉ w := fun h => hp (List.mem_append_right _ (List.mem_cons_of_mem _ h))
    have hcut := CutsTo.assignment (trim isBlank u) (trim isBlank w)
    rw [trim_cstr_trim hw] at hcut
    rwa [hkey, hvalue]
  · exact .skipped

/-- The key of an assignment whose first `=` is behind a NUL byte. -/
theorem readTrimmed_lost {u : List UInt8} (hu : 0x3D ∉ u) (t : List UInt8)
    (hhead : ¬((u ++ 0 :: t).head? = some 0x23 ∨ (u ++ 0 :: t).head? = some 0x3B) ∧
      (u ++ 0 :: t).head? ≠ some 0x5B) : CutsTo (readTrimmed (u ++ 0 :: t)) .skipped := by
  have hne : u ++ 0 :: t ≠ [] := List.append_ne_nil_of_right_ne_nil _ (List.cons_ne_nil _ _)
  rw [readTrimmed, if_neg (not_or.mpr ⟨hne, hhead.1⟩), if_neg hhead.2]
  split_ifs
  · refine .lost (zero_mem_trim ?_) _
    have hpos : ∀ c ∈ u, decide (c ≠ 0x3D) = true := fun c hc =>
      decide_eq_true fun heq => hu (heq ▸ hc)
    rw [List.takeWhile_append_of_pos hpos, List.takeWhile_cons_of_pos (by decide)]
    exact List.mem_append_right _ List.mem_cons_self
  · exact .skipped

/-- A blank is none of the characters that a line is read by. -/
theorem ne_of_isBlank {b : UInt8} (hb : isBlank b = true) :
    b ≠ 0x3D ∧ b ≠ 0x23 ∧ b ≠ 0x3B ∧ b ≠ 0x5B := by
  refine ⟨?_, ?_, ?_, ?_⟩ <;> rintro rfl <;> exact absurd hb (by decide)

/-- Blanks and a NUL byte begin nothing. -/
theorem head_blanks {g : List UInt8} (hg : ∀ b ∈ g, isBlank b = true) (t : List UInt8) :
    ¬((g ++ 0 :: t).head? = some 0x23 ∨ (g ++ 0 :: t).head? = some 0x3B) ∧
      (g ++ 0 :: t).head? ≠ some 0x5B := by
  cases g with
  | nil => simp
  | cons b g =>
    obtain ⟨-, hhash, hsemicolon, hbracket⟩ := ne_of_isBlank (hg b List.mem_cons_self)
    simp [hhash, hsemicolon, hbracket]

/-- What is read of a line with a NUL byte in it. -/
theorem readTrimmed_cut {q g : List UInt8} (hq : 0 ∉ q) (hg : ∀ b ∈ g, isBlank b = true)
    (t : List UInt8) : CutsTo (readTrimmed (q ++ (g ++ 0 :: t))) (readTrimmed q) := by
  have hassign : 0x3D ∉ g := fun h => (ne_of_isBlank (hg _ h)).1 rfl
  by_cases hnil : q = []
  · subst hnil
    have hread : readTrimmed [] = .skipped := rfl
    rw [hread, List.nil_append]
    exact readTrimmed_lost hassign t (head_blanks hg t)
  -- both lines begin alike, so they take the same branch, but for what is behind the NUL byte
  have hhead : (q ++ (g ++ 0 :: t)).head? = q.head? := List.head?_append_of_ne_nil _ hnil
  have hne : q ++ (g ++ 0 :: t) ≠ [] := List.append_ne_nil_of_left_ne_nil hnil _
  by_cases hskip : q.head? = some 0x23 ∨ q.head? = some 0x3B
  · rw [readTrimmed, hhead, if_pos (Or.inr hskip), readTrimmed, if_pos (Or.inr hskip)]
    exact .skipped
  by_cases hheader : q.head? = some 0x5B
  · rw [readTrimmed, hhead, if_neg (not_or.mpr ⟨hne, hskip⟩), if_pos hheader, readTrimmed,
      if_neg (not_or.mpr ⟨hnil, hskip⟩), if_pos hheader]
    by_cases hend : 0x5D ∈ q
    · obtain ⟨u, w, rfl, hu⟩ := List.eq_append_cons_of_mem hend
      rw [if_pos hend, if_pos (List.mem_append_left _ hend), List.append_assoc, List.cons_append,
        (cut_append_cons hu _).1, (cut_append_cons hu _).1]
      exact .header _
    · rw [if_neg hend]
      exact .malformed _
  by_cases heq : 0x3D ∈ q
  · rw [readTrimmed, hhead, if_neg (not_or.mpr ⟨hne, hskip⟩), if_neg hheader,
      if_pos (List.mem_append_left _ heq), readTrimmed, if_neg (not_or.mpr ⟨hnil, hskip⟩),
      if_neg hheader, if_pos heq]
    obtain ⟨u, w, rfl, hu⟩ := List.eq_append_cons_of_mem heq
    have hw : 0 ∉ w := fun h => hq (List.mem_append_right _ (List.mem_cons_of_mem _ h))
    rw [List.append_assoc, List.cons_append, (cut_append_cons hu _).1, (cut_append_cons hu _).2,
      (cut_append_cons hu _).1, (cut_append_cons hu _).2, ← trim_cstr_cut hw hg t]
    exact .assignment _ _
  · have hread : readTrimmed q = .skipped := by
      rw [readTrimmed, if_neg (not_or.mpr ⟨hnil, hskip⟩), if_neg hheader, if_neg heq]
    have hu : 0x3D ∉ q ++ g := fun h => (List.mem_append.mp h).elim heq hassign
    rw [hread, ← List.append_assoc]
    refine readTrimmed_lost hu t ?_
    rw [List.append_assoc, hhead]
    exact ⟨hskip, hheader⟩

/-- **What is read of a line**: what it says, up to its first NUL byte. -/
theorem readUnitLine_cstr (line : List UInt8) :
    CutsTo (readUnitLine line) (readUnitLine (cstr line)) := by
  by_cases h : 0 ∈ line
  · obtain ⟨a, b, rfl, ha⟩ := List.eq_append_cons_of_mem h
    rw [cstr_append_cons ha, readUnitLine, readUnitLine, trim_append_cons (by decide)]
    have hsplit : (a.dropWhile isBlank).rdropWhile isBlank ++
        (a.dropWhile isBlank).rtakeWhile isBlank = a.dropWhile isBlank :=
      List.rdropWhile_append_rtakeWhile
    have hblanks : ∀ c ∈ (a.dropWhile isBlank).rtakeWhile isBlank, isBlank c = true :=
      fun c hc => List.mem_rtakeWhile_imp hc
    rw [← trim] at hsplit
    rw [← hsplit, List.append_assoc]
    exact readTrimmed_cut (mt mem_of_mem_trim ha) hblanks _
  · rw [cstr_eq_self h, readUnitLine]
    exact readTrimmed_self (mt mem_of_mem_trim h)

/-! ## The loop -/

/-- A line and its newline. -/
theorem readUnitLine_cstr_newline (line : List UInt8) :
    readUnitLine (cstr (line ++ [0x0A])) = readUnitLine (cstr line) := by
  by_cases h : 0 ∈ line
  · rw [cstr_append_of_mem h]
  · have hnewline : 0 ∉ line ++ [0x0A] := fun hmem => by simp [h] at hmem
    rw [cstr_eq_self h, cstr_eq_self hnewline, readUnitLine_concat rfl]

theorem parseUnitLine_newline (st : UnitParse) (line : List UInt8) :
    parseUnitLine st (line ++ [0x0A]) = parseUnitLine st line := by
  rw [parseUnitLine_eq, parseUnitLine_eq, readUnitLine_cstr_newline]

/-- The lines that are read are the lines of the file. -/
theorem parseUnitLoop_fgetsLines : ∀ (lines : List (List UInt8)) (lineNo : ℕ) (st : UnitParse),
    parseUnitLoop lineNo st (fgetsLines lines) = parseUnitLoop lineNo st lines
  | [], _, _ => rfl
  | [line], lineNo, st => by
    rw [fgetsLines]
    split_ifs with h
    · subst h
      rfl
    · rfl
  | line :: line' :: lines, lineNo, st => by
    rw [fgetsLines, parseUnitLoop, parseUnitLine_newline, parseUnitLoop]
    cases parseUnitLine st line with
    | none => rfl
    | some st' => exact parseUnitLoop_fgetsLines (line' :: lines) _ st'

/-- A file whose lines fit the buffer. -/
theorem parseUnitLoop_fgets {content : List UInt8} (lineNo : ℕ) (st : UnitParse)
    (h : ∀ line ∈ content.splitOn 0x0A, line.length < 511) :
    parseUnitLoop lineNo st (fgets 512 content) =
      parseUnitLoop lineNo st (content.splitOn 0x0A) := by
  have hlines : ∀ line ∈ content.splitOn 0x0A, 0x0A ∉ line ∧ line.length + 1 < 512 := by
    intro line hline
    refine ⟨fun hmem => ?_, by have hlen := h line hline; omega⟩
    rw [List.splitOn_eq_splitOnP] at hline
    exact absurd (delim_of_mem_splitOnP hline _ hmem) (by decide)
  have hfgets := fgets_intercalate _ hlines
  rw [List.intercalate_splitOn] at hfgets
  rw [hfgets, parseUnitLoop_fgetsLines]

/-- The section of a field fits its buffer, so a section that is cut is another one. -/
theorem snprintf_section (name : List UInt8) (f : UnitField) :
    snprintf 32 name = f.inSection ↔ name = f.inSection := by
  have hlen : f.inSection.length < 31 := by cases f <;> decide
  rw [snprintf]
  by_cases h : name.length ≤ 31
  · rw [List.take_of_length_le h]
  · have hcut : (name.take 31).length = 31 := List.length_take_of_le (by omega)
    constructor
    · intro heq
      rw [heq] at hcut
      omega
    · rintro rfl
      omega

/-- A key has no NUL byte in it. -/
theorem zero_notMem_key (f : UnitField) : 0 ∉ f.key := by cases f <;> decide

/-- **What the loop leaves in a field**: the first part of the value that was assigned last. -/
theorem parseUnitLoop_get (f : UnitField) (lines : List (List UInt8)) :
    ∀ (lineNo : ℕ) (st : UnitParse) (current : List UInt8) (unit : UnitService),
      st.inSection = snprintf 32 current → parseUnitLoop lineNo st lines = .ok unit →
        unit.get f = ((assigned f.inSection f.key current lines).getLast?.map fun value =>
          snprintf f.size (trim isBlank (cstr value))).getD (st.unit.get f) := by
  induction lines with
  | nil =>
    intro lineNo st current unit _ h
    cases h
    rfl
  | cons line lines ih =>
    intro lineNo st current unit hsection h
    rw [parseUnitLoop, parseUnitLine_eq] at h
    rw [assigned]
    -- what the line says, and what is read of it
    have hcut := readUnitLine_cstr line
    generalize readUnitLine line = said at *
    generalize readUnitLine (cstr line) = done at *
    cases hcut with
    | skipped => exact ih _ st current unit hsection h
    | header name =>
      exact ih _ { st with inSection := snprintf 32 name } name unit rfl h
    | malformed => exact absurd h (by simp [UnitParse.read])
    | @lost key hkey value =>
      have hother : ¬(current = f.inSection ∧ key = f.key) := fun hnames =>
        zero_notMem_key f (hnames.2 ▸ hkey)
      dsimp only
      rw [if_neg hother]
      exact ih _ st current unit hsection h
    | assignment key value =>
      have hrest := ih _ { st with unit := st.unit.assign st.inSection key _ } current unit
        hsection h
      dsimp only at hrest ⊢
      rw [assign_get, hsection] at hrest
      -- a section that was cut is none of those that are asked for
      simp only [snprintf_section] at hrest
      by_cases hnames : current = f.inSection ∧ key = f.key
      · rw [if_pos hnames] at hrest ⊢
        rw [hrest, List.getLast?_cons]
        cases (assigned f.inSection f.key current lines).getLast? with
        | none => rfl
        | some last => rfl
      · rw [if_neg hnames] at hrest ⊢
        exact hrest

/-- **What is left of a value** that a file assigns. -/
theorem parseUnitFile_get {path content : List UInt8} {unit : UnitService}
    (hlines : ∀ line ∈ content.splitOn 0x0A, line.length < 511)
    (h : parseUnitFile path (some content) = .ok unit) (f : UnitField) :
    unit.get f = ((lastAssigned f.inSection f.key content).map fun value =>
      snprintf f.size (trim isBlank (cstr value))).getD [] := by
  rw [parseUnitFile, parseUnitLoop_fgets 0 unitStart hlines] at h
  cases hloop : parseUnitLoop 0 unitStart (content.splitOn 0x0A) with
  | error lineNo =>
    rw [hloop] at h
    exact absurd h (by simp [Except.mapError])
  | ok unit' =>
    rw [hloop] at h
    obtain rfl : unit' = unit := Except.ok.inj h
    have hget := parseUnitLoop_get f _ _ _ [] _ rfl hloop
    have hempty : unitStart.unit.get f = [] := by cases f <;> rfl
    rw [hget, hempty, lastAssigned]

/-! ## What is executed -/

/-- A value has no blanks at its ends. -/
theorem trim_of_readTrimmed {p key value : List UInt8}
    (h : readTrimmed p = .assignment key value) : trim isBlank value = value := by
  rw [readTrimmed] at h
  split_ifs at h
  rw [← (UnitLine.assignment.inj h).2, trim_trim]

theorem trim_of_mem_assigned {inSection key value : List UInt8} (lines : List (List UInt8)) :
    ∀ current, value ∈ assigned inSection key current lines → trim isBlank value = value := by
  induction lines with
  | nil => exact fun _ h => absurd h List.not_mem_nil
  | cons line lines ih =>
    intro current h
    rw [assigned] at h
    cases hline : readUnitLine line with
    | skipped => rw [hline] at h; exact ih _ h
    | header name => rw [hline] at h; exact ih _ h
    | malformed => rw [hline] at h; exact ih _ h
    | assignment key' value' =>
      rw [hline] at h
      dsimp only at h
      split_ifs at h
      · rcases List.mem_cons.mp h with rfl | h
        · exact trim_of_readTrimmed hline
        · exact ih _ h
      · exact ih _ h

theorem trim_of_lastAssigned {inSection key content value : List UInt8}
    (h : lastAssigned inSection key content = some value) : trim isBlank value = value :=
  trim_of_mem_assigned _ _ (List.mem_of_getLast? h)

/-- What ends an argument is a blank. -/
theorem isBlank_of_isSpaceOrTab {b : UInt8} (h : isSpaceOrTab b = true) : isBlank b = true := by
  rcases of_decide_eq_true h with rfl | rfl
  · rfl
  · rfl

/-- The tokens of a value, when nothing is missing: the two copies cut it at a NUL and at 255
bytes, and the array has room for 31 words. -/
theorem splitExecStart_eq_words {value : List UInt8} (htrim : trim isBlank value = value) :
    splitExecStart (snprintf 256 (snprintf 256 (trim isBlank (cstr value)))) 32 =
        words isSpaceOrTab value ↔
      0 ∉ value ∧ value.length ≤ 255 ∧ (words isSpaceOrTab value).length ≤ 31 := by
  have hcopy : snprintf 256 (snprintf 256 (trim isBlank (cstr value))) =
      (trim isBlank (cstr value)).take 255 := by
    rw [snprintf, snprintf, List.take_take, min_self]
  -- what is cut off is not only blanks
  have hlast : ∀ h : value ≠ [], isSpaceOrTab (value.getLast h) = false := by
    intro h
    have hblank : isBlank (value.getLast h) = false := by
      have hne : trim isBlank value ≠ [] := by rwa [htrim]
      have hblank := blank_getLast_trim hne
      simpa only [htrim] using hblank
    exact Bool.eq_false_iff.mpr fun hdelim =>
      Bool.false_ne_true (hblank.symm.trans (isBlank_of_isSpaceOrTab hdelim))
  rw [splitExecStart, tokens_eq, hcopy]
  constructor
  · intro h
    -- a NUL byte belongs to a word, and no argument has one
    have hzero : 0 ∉ value := by
      intro hmem
      have hflat : (0 : UInt8) ∈ (words isSpaceOrTab value).flatten := by
        rw [flatten_words]
        exact List.mem_filter.mpr ⟨hmem, by decide⟩
      rw [← h] at hflat
      obtain ⟨w, hw, hzero⟩ := List.mem_flatten.mp hflat
      have hmem' := List.mem_flatten.mpr ⟨w, List.mem_of_mem_take hw, hzero⟩
      rw [flatten_words] at hmem'
      exact zero_notMem_cstr value
        (mem_of_mem_trim (List.mem_of_mem_take (List.mem_filter.mp hmem').1))
    rw [cstr_eq_self hzero, htrim, take_words_take hlast] at h
    exact ⟨hzero, h⟩
  · rintro ⟨hzero, hfits⟩
    rw [cstr_eq_self hzero, htrim, take_words_take hlast]
    exact hfits

/-- **What is executed** is what the file says if no byte of it is NUL and nothing is cut, and
only then. -/
theorem startUnit_execStart_iff {sys : WaludSystem} {path content prog : List UInt8}
    {slots : List (Option (List UInt8))} {unit : UnitService}
    (hlines : ∀ line ∈ content.splitOn 0x0A, line.length < 511)
    (hparse : parseUnitFile path (some content) = .ok unit) (haccept : validateUnit unit = .ok ())
    (hexec : .execv prog slots ∈ (startUnit sys unit).child) :
    ∃ value, lastAssigned (lit "Service") (lit "ExecStart") content = some value ∧
      (slots = argvSlots (words isSpaceOrTab value) ↔
        0 ∉ value ∧ value.length ≤ 255 ∧ (words isSpaceOrTab value).length ≤ 31) := by
  have hget : unit.execStart = ((lastAssigned (lit "Service") (lit "ExecStart") content).map
      fun value => snprintf 256 (trim isBlank (cstr value))).getD [] :=
    parseUnitFile_get hlines hparse .execStart
  cases hvalue : lastAssigned (lit "Service") (lit "ExecStart") content with
  | none =>
    have habsolute := validateUnit_ok haccept
    rw [hget, hvalue] at habsolute
    exact absurd habsolute.symm (Option.some_ne_none _)
  | some value =>
    refine ⟨value, rfl, ?_⟩
    obtain ⟨args, hsplit, hslots, -⟩ := startUnit_execv hexec
    rw [hget, hvalue] at hsplit
    rw [← splitExecStart_eq_words (trim_of_lastAssigned hvalue), hslots, ← hsplit]
    constructor
    · intro h
      exact List.map_injective_iff.mpr (fun _ _ => Option.some.inj) (List.append_cancel_right h)
    · exact congrArg argvSlots

theorem webUnit_execStart :
    ∃ value, lastAssigned (lit "Service") (lit "ExecStart") webUnit = some value ∧
      ([some (lit "/bin/www"), some (lit "-p"), some (lit "80"), none] =
          argvSlots (words isSpaceOrTab value) ↔
        0 ∉ value ∧ value.length ≤ 255 ∧ (words isSpaceOrTab value).length ≤ 31) := by
  have hparse : parseUnitFile (lit "web.service") (some webUnit) =
      .ok ⟨lit "Web", [], [], lit "/bin/www -p 80", lit "web", [], []⟩ := by decide +kernel
  have hexec : .execv (lit "/bin/www")
        [some (lit "/bin/www"), some (lit "-p"), some (lit "80"), none] ∈
      (startUnit (webSystem webUnit)
        ⟨lit "Web", [], [], lit "/bin/www -p 80", lit "web", [], []⟩).child := by decide +kernel
  exact startUnit_execStart_iff (by decide +kernel) hparse (by decide +kernel) hexec

/-- A unit whose `ExecStart` has 32 words. -/
def pruneUnit : List UInt8 :=
  lit "[Unit]\nDescription=Prune\n[Service]\nExecStart=/bin/prune 01 02 03 04 05 06 07 08 09 10 " ++
    lit "11 12 13 14 15 16 17 18 19 20 21 22 23 24 25 26 27 28 29 30 --dry-run\n"

/-- Its words. -/
def pruneWords : List (List UInt8) :=
  (["/bin/prune", "01", "02", "03", "04", "05", "06", "07", "08", "09", "10", "11", "12", "13",
    "14", "15", "16", "17", "18", "19", "20", "21", "22", "23", "24", "25", "26", "27", "28", "29",
    "30", "--dry-run"].map lit)

/-- The last word of `ExecStart` is not passed on. -/
theorem pruneUnit_cut :
    (∀ line ∈ pruneUnit.splitOn 0x0A, line.length < 511) ∧
      (lastAssigned (lit "Service") (lit "ExecStart") pruneUnit).map (words isSpaceOrTab) =
        some pruneWords ∧
      .execv (lit "/bin/prune") (argvSlots pruneWords.dropLast) ∈
        (waludMain (webSystem pruneUnit) [lit "walud", lit "start", lit "prune.service"]).child ∧
      argvSlots pruneWords.dropLast ≠ argvSlots pruneWords := by
  decide +kernel

end WaluOs
