import WaluOs.CommentPieces

/-!
# Writing a unit file

`parse_unit_file` reads units, and `print_unit` prints their fields as assignments.
`parseUnitFile_range` says which units can be read at all: their fields have no NUL byte and no
newline in them, begin with no blank, and end with a blank only if they are full.

Under the headers of their sections the lines of `print_unit` are a unit file again. Reading it
gives the unit back but for the blanks at the ends of its full fields
(`parseUnitFile_renderUnit`).
-/

namespace WaluOs

open CStrings

/-! ## The file -/

/-- The fields, in the order of `unit_service_t`. -/
def unitFields : List UnitField :=
  [.description, .after, .requires, .execStart, .user, .restart, .wantedBy]

/-- The assignment of a field. -/
def valueLine (f : UnitField) (value : List UInt8) : List UInt8 := f.key ++ lit "=" ++ value

/-- The lines of a file with these values. -/
def valueLines (value : UnitField → List UInt8) (fields : List UnitField) : List (List UInt8) :=
  fields.flatMap fun f => [headerLine f, valueLine f (value f)]

/-- A file with a value for each field. -/
def valueFile (value : UnitField → List UInt8) : List UInt8 :=
  [0x0A].intercalate (valueLines value unitFields)

/-- A file for a unit. The program itself never writes one; it prints the assignments, and the
headers of the sections are what is missing. -/
def renderUnit (unit : UnitService) : List UInt8 := valueFile unit.get

/-- The assignments in it are what `print_unit` prints. -/
theorem printUnit_eq (unit : UnitService) :
    printUnit unit = unitFields.map fun f => .stdout (valueLine f (unit.get f) ++ [0x0A]) := rfl

theorem mem_unitFields (f : UnitField) : f ∈ unitFields := by cases f <;> decide

/-- Two units with the same fields. -/
theorem eq_of_get {unit unit' : UnitService} (h : ∀ f, unit.get f = unit'.get f) :
    unit = unit' := by
  cases unit
  cases unit'
  have hdescription := h .description
  have hafter := h .after
  have hrequires := h .requires
  have hexec := h .execStart
  have huser := h .user
  have hrestart := h .restart
  have hwanted := h .wantedBy
  simp only [UnitService.get] at *
  subst_vars
  rfl

/-- The unit without the blanks at the ends of its fields. A field can end with one only if the
value was cut off there, and reading it again takes the blank away. -/
def UnitService.trimmed (unit : UnitService) : UnitService where
  description := trim isBlank unit.description
  after := trim isBlank unit.after
  requires := trim isBlank unit.requires
  execStart := trim isBlank unit.execStart
  user := trim isBlank unit.user
  restart := trim isBlank unit.restart
  wantedBy := trim isBlank unit.wantedBy

theorem get_trimmed (unit : UnitService) (f : UnitField) :
    unit.trimmed.get f = trim isBlank (unit.get f) := by cases f <;> rfl

theorem trimmed_eq_self_iff {unit : UnitService} :
    unit.trimmed = unit ↔ ∀ f, trim isBlank (unit.get f) = unit.get f := by
  constructor
  · intro h f
    rw [← get_trimmed, h]
  · exact fun h => eq_of_get fun f => (get_trimmed unit f).trans (h f)

/-! ## Reading it -/

/-- The value can stand in a line for the field. A NUL or a newline would end the line, and a
value of this length fits in the buffer for a line behind the name of any field. -/
structure UnitField.Fits (f : UnitField) (value : List UInt8) : Prop where
  zero : 0 ∉ value
  newline : 0x0A ∉ value
  short : value.length ≤ f.size

/-- A key is all letters. -/
theorem key_letters (f : UnitField) :
    0x3D ∉ f.key ∧ 0x0A ∉ f.key ∧ 0 ∉ f.key ∧ trim isBlank f.key = f.key := by
  cases f <;> decide

theorem readUnitLine_valueLine (f : UnitField) (value : List UInt8) :
    readUnitLine (valueLine f value) = .assignment f.key (trim isBlank value) := by
  have hfirst : firstChar (valueLine f value) = f.key.head? := by cases f <;> rfl
  have hletter : f.key.head? ≠ none ∧ f.key.head? ≠ some 0x23 ∧ f.key.head? ≠ some 0x3B ∧
      f.key.head? ≠ some 0x5B := by cases f <;> decide
  obtain ⟨hequals, -, -, htrim⟩ := key_letters f
  have hline : valueLine f value = f.key ++ 0x3D :: value := List.append_assoc f.key (lit "=") value
  have hremark : ¬IsRemark (valueLine f value) := by
    rintro (h | h | h) <;> rw [hfirst] at h
    · exact hletter.1 h
    · exact hletter.2.1 h
    · exact hletter.2.2.1 h
  have hheader : ¬IsHeader (valueLine f value) := fun h => hletter.2.2.2 (hfirst.symm.trans h)
  have hmem : 0x3D ∈ valueLine f value := by
    rw [hline]
    exact List.mem_append_right _ List.mem_cons_self
  rw [readUnitLine_assignment_iff, assignmentOf, if_pos ⟨hremark, hheader, hmem⟩, hline,
    (cut_append_cons hequals value).1, (cut_append_cons hequals value).2, htrim]

theorem unitRun_valueLine (st : UnitParse) {f : UnitField} {value : List UInt8}
    (h : f.Fits value) :
    unitRun st (piecesOf (valueLine f value)) =
      (true, { st with unit := st.unit.assign st.inSection f.key (trim isBlank value) }) := by
  obtain ⟨-, hnewline, hzero, -⟩ := key_letters f
  refine unitRun_line ?_ ?_ ?_ (by rw [readUnitLine_valueLine]; rfl)
  · intro hmem
    rcases List.mem_append.mp hmem with hmem | hmem
    · exact (List.mem_append.mp hmem).elim hzero (by decide)
    · exact h.zero hmem
  · intro hmem
    rcases List.mem_append.mp hmem with hmem | hmem
    · exact (List.mem_append.mp hmem).elim hnewline (by decide)
    · exact h.newline hmem
  · have hkey : f.key.length + 1 + f.size < 500 := by cases f <;> decide
    have hshort := h.short
    rw [valueLine, List.length_append, List.length_append]
    show f.key.length + 1 + value.length < 511
    omega

/-- The fields that are written are set, and the others stay. -/
theorem reads_valueLines {value : UnitField → List UInt8}
    (hfits : ∀ f : UnitField, f.Fits (value f)) (fields : List UnitField) : ∀ st : UnitParse,
      ∃ st', Reads st (valueLines value fields) st' ∧ ∀ g, st'.unit.get g =
        if g ∈ fields then snprintf g.size (trim isBlank (value g)) else st.unit.get g := by
  induction fields with
  | nil =>
    intro st
    exact ⟨st, Reads.nil st, fun g => (if_neg List.not_mem_nil).symm⟩
  | cons f fields ih =>
    intro st
    obtain ⟨st', hreads, hget⟩ := ih
      ⟨f.inSection, st.unit.assign f.inSection f.key (trim isBlank (value f))⟩
    refine ⟨st', Reads.cons (unitRun_headerLine st f)
      (Reads.cons (unitRun_valueLine _ (hfits f)) hreads), fun g => ?_⟩
    rw [hget, assign_field, get_put]
    by_cases hg : g ∈ fields
    · rw [if_pos hg, if_pos (List.mem_cons_of_mem f hg)]
    · rw [if_neg hg]
      by_cases hfg : f = g
      · rw [if_pos hfg, if_pos (hfg ▸ List.mem_cons_self), hfg]
      · rw [if_neg hfg, if_neg fun h => (List.mem_cons.mp h).elim (fun h => hfg h.symm) hg]

/-- **What is read** of a file with a value for each field. -/
theorem parseUnitFile_valueFile (path : List UInt8) {value : UnitField → List UInt8}
    (hfits : ∀ f : UnitField, f.Fits (value f)) {unit : UnitService}
    (hunit : ∀ f, unit.get f = snprintf f.size (trim isBlank (value f))) :
    parseUnitFile path (some (valueFile value)) = .ok unit := by
  obtain ⟨st', hreads, hget⟩ := reads_valueLines hfits unitFields unitStart
  rw [parseUnitFile_ok_iff, valueFile, hreads.result]
  refine Prod.ext rfl (eq_of_get fun f => ?_)
  rw [hget, if_pos (mem_unitFields f), hunit]

/-! ## What can be read -/

/-- The value can be that of the field in a unit that was read. It was trimmed before it was
copied and perhaps cut, which explains the last condition. -/
structure UnitField.Holds (f : UnitField) (value : List UInt8) : Prop where
  zero : 0 ∉ value
  newline : 0x0A ∉ value
  short : value.length < f.size
  begins : ∀ b ∈ value.head?, isBlank b = false
  ends : value.length + 1 < f.size → trim isBlank value = value

theorem UnitField.Holds.fits {f : UnitField} {value : List UInt8} (h : f.Holds value) :
    f.Fits value := ⟨h.zero, h.newline, h.short.le⟩

theorem UnitField.Holds.dropWhile {f : UnitField} {value : List UInt8} (h : f.Holds value) :
    value.dropWhile isBlank = value := by
  cases hvalue : value with
  | nil => rfl
  | cons b rest =>
    have hb := h.begins b (by rw [hvalue]; rfl)
    rw [List.dropWhile_cons_of_neg (by rw [hb]; decide)]

theorem holds_nil (f : UnitField) : f.Holds [] where
  zero := List.not_mem_nil
  newline := List.not_mem_nil
  short := by cases f <;> decide
  begins := fun _ h => nomatch h
  ends := fun _ => rfl

/-- What an assignment leaves. -/
theorem holds_snprintf (f : UnitField) {value : List UInt8} (hzero : 0 ∉ value)
    (hnewline : 0x0A ∉ value) : f.Holds (snprintf f.size (trim isBlank value)) := by
  have hsize : 0 < f.size := by cases f <;> decide
  refine ⟨fun h => hzero (mem_of_mem_trim (List.mem_of_mem_take h)),
    fun h => hnewline (mem_of_mem_trim (List.mem_of_mem_take h)), ?_, fun b hb => ?_, fun h => ?_⟩
  · rw [snprintf, List.length_take]
    omega
  · cases htrim : trim isBlank value with
    | nil =>
      rw [htrim, snprintf, List.take_nil] at hb
      exact absurd hb (Option.not_mem_none b)
    | cons c rest =>
      have hc := blank_of_trim_cons htrim
      rw [htrim, snprintf] at hb
      obtain rfl : c = b := by
        cases hn : f.size - 1 with
        | zero => rw [hn] at hb; exact absurd hb (Option.not_mem_none b)
        | succ n => rw [hn] at hb; exact Option.some.inj hb
      exact hc
  · rw [snprintf, List.length_take] at h
    rw [snprintf, List.take_of_length_le (by omega), trim_trim]

/-- A piece says what a line says that has no newline in it. -/
theorem exists_said_eq {content piece : List UInt8} (h : piece ∈ fgets 512 content) :
    ∃ line, 0x0A ∉ line ∧ 0 ∉ line ∧ said piece = readUnitLine line := by
  obtain ⟨front, back, hpieces⟩ := List.append_of_mem h
  obtain ⟨stop, rest, -, -, rfl, hstop, -⟩ := fgets_split (show 0 < 511 by decide) front
    (show 511 ∣ column [] from Nat.dvd_zero 511) hpieces
  refine ⟨cstr (chunk 511 rest), fun hmem => newline_notMem_chunk 511 rest ?_,
    zero_notMem_cstr _, ?_⟩
  · exact (List.takeWhile_prefix _).subset hmem
  · rcases hstop with rfl | rfl
    · rw [said, readUnitLine_cstr_newline]
    · rw [said, List.append_nil]

/-- **One line.** -/
theorem holds_read {st st' : UnitParse} {line : List UInt8} (hnewline : 0x0A ∉ line)
    (hzero : 0 ∉ line) (h : ∀ f : UnitField, f.Holds (st.unit.get f))
    (hread : st.read (readUnitLine line) = some st') (f : UnitField) :
    f.Holds (st'.unit.get f) := by
  cases hline : readUnitLine line with
  | skipped =>
    rw [hline] at hread
    cases hread
    exact h f
  | malformed =>
    rw [hline] at hread
    exact absurd hread nofun
  | header name =>
    rw [hline] at hread
    cases hread
    exact h f
  | assignment key value =>
    rw [hline] at hread
    cases hread
    rw [readUnitLine_assignment_iff, assignmentOf] at hline
    split_ifs at hline
    obtain ⟨-, rfl⟩ := Prod.mk.inj (Option.some.inj hline)
    have hsub : ∀ b ∈ (line.dropWhile fun c => c ≠ 0x3D).drop 1, b ∈ line := fun b hb =>
      (List.dropWhile_suffix _).subset (List.mem_of_mem_drop hb)
    rw [assign_get]
    split_ifs
    · exact holds_snprintf f (fun hb => hzero (hsub 0 hb)) fun hb => hnewline (hsub _ hb)
    · exact h f

/-- **The loop.** -/
theorem holds_unitRun {pieces : List (List UInt8)} : ∀ {st : UnitParse},
    (∀ piece ∈ pieces, ∃ line, 0x0A ∉ line ∧ 0 ∉ line ∧ said piece = readUnitLine line) →
      (∀ f : UnitField, f.Holds (st.unit.get f)) →
        ∀ f : UnitField, f.Holds ((unitRun st pieces).2.unit.get f) := by
  induction pieces with
  | nil => exact fun _ h => h
  | cons piece pieces ih =>
    intro st hpieces h
    obtain ⟨⟨line, hnewline, hzero, hsaid⟩, hpieces⟩ := List.forall_mem_cons.mp hpieces
    rw [unitRun_cons, hsaid]
    cases hread : st.read (readUnitLine line) with
    | none => exact h
    | some st' => exact ih hpieces (holds_read hnewline hzero h hread)

theorem holds_parseUnitFile {path content : List UInt8} {unit : UnitService}
    (h : parseUnitFile path (some content) = .ok unit) (f : UnitField) :
    f.Holds (unit.get f) := by
  obtain rfl := (Prod.mk.inj ((parseUnitFile_ok_iff path content unit).mp h)).2
  refine holds_unitRun (fun piece hpiece => exists_said_eq hpiece) (fun g => ?_) f
  cases g <;> exact holds_nil _

/-- A value that is read into the field. A letter behind a full one keeps a blank at its end. -/
def UnitField.spelling (f : UnitField) (value : List UInt8) : List UInt8 :=
  if value.length + 1 = f.size then value ++ lit "x" else value

theorem UnitField.Holds.spelling {f : UnitField} {value : List UInt8} (h : f.Holds value) :
    f.Fits (f.spelling value) ∧ snprintf f.size (trim isBlank (f.spelling value)) = value := by
  have hshort := h.short
  rw [UnitField.spelling]
  split_ifs with hfull
  · constructor
    · refine ⟨fun hmem => ?_, fun hmem => ?_, ?_⟩
      · exact (List.mem_append.mp hmem).elim h.zero (by decide)
      · exact (List.mem_append.mp hmem).elim h.newline (by decide)
      · rw [List.length_append]
        exact hfull.le
    · have htrim : trim isBlank (value ++ lit "x") = value ++ lit "x" := by
        rw [show lit "x" = [0x78] from rfl, trim_append_cons (by decide), h.dropWhile]
        rfl
      rw [htrim, snprintf, ← hfull, Nat.add_sub_cancel, List.take_left]
  · refine ⟨h.fits, ?_⟩
    rw [h.ends (by omega), snprintf, List.take_of_length_le (by omega)]

/-- **The units that can be read** from a file: each field was trimmed and then cut to its buffer,
and every unit of such fields is in some file. -/
theorem parseUnitFile_range (path : List UInt8) (unit : UnitService) :
    (∃ content, parseUnitFile path (some content) = .ok unit) ↔
      ∀ f : UnitField, f.Holds (unit.get f) := by
  constructor
  · rintro ⟨content, h⟩
    exact holds_parseUnitFile h
  · exact fun h => ⟨valueFile fun f => f.spelling (unit.get f),
      parseUnitFile_valueFile path (fun f => (h f).spelling.1) fun f => (h f).spelling.2.symm⟩

/-- A value that begins with no blank is trimmed if it ends with none. -/
theorem UnitField.Holds.trim_eq_self_iff {f : UnitField} {value : List UInt8} (h : f.Holds value) :
    trim isBlank value = value ↔ ∀ hne : value ≠ [], isBlank (value.getLast hne) = false := by
  simp only [trim, h.dropWhile, List.rdropWhile_eq_self_iff, Bool.not_eq_true]

/-- **Writing and reading.** A unit that was read is read again but for the blanks at the ends of
its fields, so it is the same unit if no field ends with a blank. -/
theorem parseUnitFile_renderUnit {path content : List UInt8} {unit : UnitService}
    (h : parseUnitFile path (some content) = .ok unit) (path' : List UInt8) :
    parseUnitFile path' (some (renderUnit unit)) = .ok unit.trimmed ∧
      (parseUnitFile path' (some (renderUnit unit)) = .ok unit ↔
        ∀ (f : UnitField) (hne : unit.get f ≠ []),
          isBlank ((unit.get f).getLast hne) = false) := by
  have hread : parseUnitFile path' (some (renderUnit unit)) = .ok unit.trimmed := by
    refine parseUnitFile_valueFile path' (fun f => (holds_parseUnitFile h f).fits) fun f => ?_
    have hshort := (holds_parseUnitFile h f).short
    have hle : (trim isBlank (unit.get f)).length ≤ (unit.get f).length :=
      (trim_isInfix (unit.get f)).length_le
    rw [get_trimmed, snprintf, List.take_of_length_le (by omega)]
  refine ⟨hread, ?_⟩
  rw [hread, Except.ok.injEq, trimmed_eq_self_iff]
  exact forall_congr' fun f => (holds_parseUnitFile h f).trim_eq_self_iff

/-- A file with a value that is cut behind a blank. -/
def cutFile : List UInt8 := lit "[Service]\nRestart=on-failure then wait and retry often"

theorem parseUnitFile_renderUnit_cutFile :
    ∃ unit : UnitService, unit.restart = lit "on-failure then wait and retry " ∧
      parseUnitFile [] (some (renderUnit unit)) =
        .ok { unit with restart := lit "on-failure then wait and retry" } := by
  refine ⟨⟨[], [], [], [], [], lit "on-failure then wait and retry ", []⟩, rfl, ?_⟩
  have hcut : parseUnitFile [] (some cutFile) =
      .ok ⟨[], [], [], [], [], lit "on-failure then wait and retry ", []⟩ := rfl
  exact (parseUnitFile_renderUnit hcut []).1

end WaluOs
