import WaluOs.FilePieces
import WaluOs.UnitMeaning

/-!
# Comments in a unit file

`parse_unit_file` takes each piece that `fgets` reads for a line. A line that does not fit the
buffer is read in pieces of 511 bytes, so behind the first of them a comment is no comment any
more.

`comment_inert_iff` says which comments can be taken out of every file without a change of what
`parse_unit_file` returns and leaves in the unit: those whose later pieces say nothing.
-/

namespace WaluOs

open CStrings

/-! ## The program -/

/-- The loop of `parse_unit_file`, with the locals that it leaves when it fails, too. -/
def unitRun : UnitParse → List (List UInt8) → Bool × UnitParse
  | st, [] => (true, st)
  | st, piece :: pieces =>
    match parseUnitLine st piece with
    | none => (false, st)
    | some st' => unitRun st' pieces

/-- What `parse_unit_file` returns for a file, and what it leaves in `*unit`. Two files with the
same result cannot be told apart by a caller. -/
def unitResult (content : List UInt8) : Bool × UnitService :=
  ((unitRun unitStart (fgets 512 content)).1, (unitRun unitStart (fgets 512 content)).2.unit)

/-- It is the loop of `parseUnitFile`. -/
theorem parseUnitLoop_ok_iff (pieces : List (List UInt8)) :
    ∀ (lineNo : ℕ) (st : UnitParse) (unit : UnitService),
      parseUnitLoop lineNo st pieces = .ok unit ↔
        (unitRun st pieces).1 = true ∧ (unitRun st pieces).2.unit = unit := by
  induction pieces with
  | nil =>
    intro lineNo st unit
    simp [parseUnitLoop, unitRun]
  | cons piece pieces ih =>
    intro lineNo st unit
    rw [parseUnitLoop, unitRun]
    cases parseUnitLine st piece with
    | none => simp
    | some st' => exact ih _ st' unit

theorem parseUnitFile_ok_iff (path content : List UInt8) (unit : UnitService) :
    parseUnitFile path (some content) = .ok unit ↔ unitResult content = (true, unit) := by
  rw [unitResult, Prod.mk.injEq, ← parseUnitLoop_ok_iff _ 0, parseUnitFile]
  cases parseUnitLoop 0 unitStart (fgets 512 content) <;> simp [Except.mapError]

/-! ## Pieces -/

/-- What is read of a line. -/
def piecesOf (line : List UInt8) : List (List UInt8) := fgets 512 (line ++ [0x0A])

theorem unitRun_append (front back : List (List UInt8)) (st : UnitParse) :
    unitRun st (front ++ back) =
      if (unitRun st front).1 then unitRun (unitRun st front).2 back else unitRun st front := by
  induction front generalizing st with
  | nil => rfl
  | cons piece front ih =>
    rw [List.cons_append, unitRun, unitRun]
    cases parseUnitLine st piece with
    | none => rfl
    | some st' => exact ih st'

/-- Pieces that are passed. -/
theorem unitRun_append_of_true {front : List (List UInt8)} {st st' : UnitParse}
    (h : unitRun st front = (true, st')) (back : List (List UInt8)) :
    unitRun st (front ++ back) = unitRun st' back := by
  rw [unitRun_append, h, if_pos rfl]

theorem parseUnitLine_nil (st : UnitParse) : parseUnitLine st [] = some st := rfl

/-- A newline at the end of a file says nothing. -/
theorem unitRun_newline (st : UnitParse) (content : List UInt8) :
    unitRun st (fgets 512 (content ++ [0x0A])) = unitRun st (fgets 512 content) := by
  obtain ⟨front, last, hend, hnewline⟩ := fgets_end 512 content
  rw [hend, hnewline, unitRun_append, unitRun_append]
  have hlast : ∀ st, unitRun st [last ++ [0x0A]] =
      unitRun st (if last = [] then [] else [last]) := by
    intro st
    rw [unitRun, parseUnitLine_newline]
    by_cases h : last = []
    · rw [if_pos h, h, parseUnitLine_nil]
    · rw [if_neg h, unitRun]
  rw [hlast]

/-- A file is read line by line. -/
theorem unitRun_lines (st : UnitParse) (lines : List (List UInt8)) :
    unitRun st (fgets 512 ([0x0A].intercalate lines)) = unitRun st (lines.flatMap piecesOf) := by
  by_cases h : lines = []
  · subst h
    rfl
  · rw [← unitRun_newline, fgets_lines 512 h]
    rfl

/-- The piece of a line that begins at its byte 511 · `i`, up to the first NUL byte. `fgets` reads
a long line in such pieces, and the parser takes each of them for a line. -/
def pieceAt (line : List UInt8) (i : ℕ) : List UInt8 := cstr ((line.drop (511 * i)).take 511)

/-- What a piece says. -/
def said (piece : List UInt8) : UnitLine := readUnitLine (cstr piece)

/-- A piece, with the newline or without it. -/
theorem said_piece {line : List UInt8} {i : ℕ} (hi : 511 * i ≤ line.length) :
    said (((line ++ [0x0A]).drop (511 * i)).take 511) = readUnitLine (pieceAt line i) := by
  rw [said, pieceAt, List.drop_append_of_le_length hi]
  rcases Nat.lt_or_ge (line.drop (511 * i)).length 511 with hlt | hge
  · have hall : (line.drop (511 * i) ++ [0x0A]).take 511 = line.drop (511 * i) ++ [0x0A] :=
      List.take_of_length_le (by rw [List.length_append, List.length_singleton]; omega)
    rw [hall, readUnitLine_cstr_newline, List.take_of_length_le hlt.le]
  · rw [List.take_append_of_le_length hge]

/-- The pieces of a line. -/
theorem mem_piecesOf_iff {line piece : List UInt8} (hline : 0x0A ∉ line) :
    piece ∈ piecesOf line ↔
      ∃ i, 511 * i ≤ line.length ∧ piece = ((line ++ [0x0A]).drop (511 * i)).take 511 :=
  mem_fgets_line_iff (show 0 < 511 by decide) hline

/-! ## Lines that say nothing -/

/-- The line is no header, and assigns no field. A short comment is such a line; of a long one,
each piece has to be. -/
def IsInert (line : List UInt8) : Prop :=
  ¬IsHeader line ∧ ∀ (f : UnitField) (value : List UInt8), assignmentOf line ≠ some (f.key, value)

theorem IsRemark.inert {line : List UInt8} (h : IsRemark line) : IsInert line := by
  refine ⟨fun hheader => hheader.not_remark h, fun f value hassign => ?_⟩
  rw [assignmentOf, if_neg fun hparts => hparts.1 h] at hassign
  exact Option.some_ne_none _ hassign.symm

theorem isInert_nil : IsInert [] := IsRemark.inert (Or.inl rfl)

theorem isInert_iff_read (line : List UInt8) :
    IsInert line ↔ readUnitLine line ≠ .malformed ∧ (∀ name, readUnitLine line ≠ .header name) ∧
      ∀ (f : UnitField) (value : List UInt8), readUnitLine line ≠ .assignment f.key value := by
  have hheader : IsHeader line ↔
      readUnitLine line = .malformed ∨ ∃ name, readUnitLine line = .header name := by
    simp only [readUnitLine_malformed_iff, readUnitLine_header_iff, headerOf]
    by_cases hline : IsHeader line <;> by_cases hend : 0x5D ∈ line <;> simp [hline, hend]
  simp only [IsInert, hheader, ne_eq, readUnitLine_assignment_iff, not_or, not_exists, and_assoc]

/-- Such a line is passed. -/
theorem IsInert.read {line : List UInt8} (h : IsInert line) (st : UnitParse) :
    st.read (readUnitLine line) = some st := by
  obtain ⟨hmalformed, hheader, hassign⟩ := (isInert_iff_read line).mp h
  cases hread : readUnitLine line with
  | skipped => rfl
  | header name => exact absurd hread (hheader name)
  | malformed => exact absurd hread hmalformed
  | assignment key value =>
    have hkey : ∀ f : UnitField, ¬(st.inSection = f.inSection ∧ key = f.key) := by
      rintro f ⟨-, rfl⟩
      exact hassign f value hread
    rw [UnitParse.read, assign_other st.unit value hkey]

/-! ## Lines that say something -/

theorem unitRun_cons (st : UnitParse) (piece : List UInt8) (pieces : List (List UInt8)) :
    unitRun st (piece :: pieces) =
      ((st.read (said piece)).map fun st' => unitRun st' pieces).getD (false, st) := by
  rw [unitRun, parseUnitLine_eq, said]
  cases st.read (readUnitLine (cstr piece)) <;> rfl

/-- `parse_unit_file` succeeds if no header is malformed. -/
theorem unitRun_true_iff (pieces : List (List UInt8)) : ∀ st : UnitParse,
    (unitRun st pieces).1 = true ↔ ∀ piece ∈ pieces, said piece ≠ .malformed := by
  induction pieces with
  | nil => simp [unitRun]
  | cons piece pieces ih =>
    intro st
    rw [unitRun_cons, List.forall_mem_cons]
    cases said piece with
    | malformed => simp [UnitParse.read]
    | _ => simp [UnitParse.read, ih]

/-- A line with a header in it ends in a section of its own; one without leaves the section. -/
theorem unitRun_section {pieces : List (List UInt8)}
    (hok : ∀ piece ∈ pieces, said piece ≠ .malformed) :
    (∃ name, ∀ st, (unitRun st pieces).2.inSection = name) ∨
      (∀ st, (unitRun st pieces).2.inSection = st.inSection) ∧
        ∀ piece ∈ pieces, ∀ name, said piece ≠ .header name := by
  induction pieces with
  | nil => exact Or.inr ⟨fun _ => rfl, fun _ h => absurd h List.not_mem_nil⟩
  | cons piece pieces ih =>
    obtain ⟨hpiece, hok⟩ := List.forall_mem_cons.mp hok
    simp only [unitRun_cons, List.forall_mem_cons]
    rcases ih hok with ⟨name, hname⟩ | ⟨hsame, hno⟩
    · left
      refine ⟨name, fun st => ?_⟩
      cases hsaid : said piece with
      | malformed => exact absurd hsaid hpiece
      | _ => exact hname _
    · cases hsaid : said piece with
      | malformed => exact absurd hsaid hpiece
      | header name => exact Or.inl ⟨snprintf 32 name, fun st => hsame _⟩
      | skipped => exact Or.inr ⟨fun st => hsame _, fun name h => (nomatch h), hno⟩
      | assignment key value => exact Or.inr ⟨fun st => hsame _, fun name h => (nomatch h), hno⟩

/-- A line without a header that assigns a field leaves a value of its own in it. -/
theorem unitRun_field (f : UnitField) {pieces : List (List UInt8)}
    (hok : ∀ piece ∈ pieces, said piece ≠ .malformed)
    (hno : ∀ piece ∈ pieces, ∀ name, said piece ≠ .header name) :
    (∃ value, ∀ st, st.inSection = f.inSection → (unitRun st pieces).2.unit.get f = value) ∨
      (∀ st, (unitRun st pieces).2.unit.get f = st.unit.get f) ∧
        ∀ piece ∈ pieces, ∀ value, said piece ≠ .assignment f.key value := by
  induction pieces with
  | nil => exact Or.inr ⟨fun _ => rfl, fun _ h => absurd h List.not_mem_nil⟩
  | cons piece pieces ih =>
    obtain ⟨hpiece, hok⟩ := List.forall_mem_cons.mp hok
    obtain ⟨hheader, hno⟩ := List.forall_mem_cons.mp hno
    simp only [unitRun_cons, List.forall_mem_cons]
    cases hsaid : said piece with
    | malformed => exact absurd hsaid hpiece
    | header name => exact absurd hsaid (hheader name)
    | skipped =>
      rcases ih hok hno with hvalue | ⟨hsame, hother⟩
      · exact Or.inl hvalue
      · exact Or.inr ⟨hsame, fun value h => (nomatch h), hother⟩
    | assignment key value =>
      rcases ih hok hno with ⟨last, hlast⟩ | ⟨hsame, hother⟩
      · exact Or.inl ⟨last, fun st hst => hlast _ hst⟩
      · by_cases hkey : key = f.key
        · left
          refine ⟨snprintf f.size value, fun st hst => (hsame _).trans ?_⟩
          rw [assign_get, if_pos ⟨hst, hkey⟩]
        · right
          refine ⟨fun st => (hsame _).trans ?_, fun other h => hkey ?_, hother⟩
          · rw [assign_get, if_neg fun hnames => hkey hnames.2]
          · exact (UnitLine.assignment.inj h).1

/-- And so is a line of which every piece is such a line. -/
theorem unitRun_inert {pieces : List (List UInt8)} (st : UnitParse)
    (h : ∀ piece ∈ pieces, st.read (said piece) = some st) : unitRun st pieces = (true, st) := by
  induction pieces with
  | nil => rfl
  | cons piece pieces ih =>
    obtain ⟨hpiece, hpieces⟩ := List.forall_mem_cons.mp h
    rw [unitRun_cons, hpiece]
    exact ih hpieces

/-! ## Files around a line -/

/-- The header of a field. -/
def headerLine (f : UnitField) : List UInt8 := lit "[" ++ f.inSection ++ lit "]"

/-- One of two values. -/
def mark (b : Bool) : List UInt8 := if b then lit "a" else lit "b"

/-- The assignment of such a value. -/
def markLine (f : UnitField) (b : Bool) : List UInt8 := f.key ++ lit "=" ++ mark b

theorem exists_mark_ne (value : List UInt8) : ∃ b, mark b ≠ value := by
  by_cases h : mark true = value
  · exact ⟨false, fun hfalse => absurd (h.trans hfalse.symm) (by decide)⟩
  · exact ⟨true, h⟩

/-- A line that fits is one piece. -/
theorem unitRun_line {line : List UInt8} {st st' : UnitParse} (hzero : 0 ∉ line)
    (hline : 0x0A ∉ line) (hfits : line.length < 511)
    (hread : st.read (readUnitLine line) = some st') : unitRun st (piecesOf line) = (true, st') := by
  have hpieces : piecesOf line = [line ++ [0x0A]] :=
    fgets_line hline (Nat.succ_lt_succ hfits) []
  rw [hpieces, unitRun_cons, said, readUnitLine_cstr_newline, cstr_eq_self hzero, hread]
  rfl

theorem unitRun_headerLine (st : UnitParse) (f : UnitField) :
    unitRun st (piecesOf (headerLine f)) = (true, { st with inSection := f.inSection }) := by
  have hread : st.read (readUnitLine (headerLine f)) =
      some { st with inSection := f.inSection } := by cases f <;> rfl
  refine unitRun_line ?_ ?_ ?_ hread <;> cases f <;> decide

theorem unitRun_markLine (st : UnitParse) (f : UnitField) (b : Bool) :
    unitRun st (piecesOf (markLine f b)) =
      (true, { st with unit := st.unit.assign st.inSection f.key (mark b) }) := by
  have hread : readUnitLine (markLine f b) = .assignment f.key (mark b) := by
    cases f <;> cases b <;> rfl
  refine unitRun_line ?_ ?_ ?_ (by rw [hread]; rfl) <;> cases f <;> cases b <;> decide

theorem notMem_headerLine (f : UnitField) : 0x0A ∉ headerLine f := by cases f <;> decide

theorem notMem_markLine (f : UnitField) (b : Bool) : 0x0A ∉ markLine f b := by
  cases f <;> cases b <;> decide

/-- The value is short. -/
theorem assign_mark (unit : UnitService) (f : UnitField) (b : Bool) :
    (unit.assign f.inSection f.key (mark b)).get f = mark b := by
  rw [assign_get, if_pos ⟨rfl, rfl⟩]
  cases f <;> cases b <;> rfl

theorem unitResult_lines (lines : List (List UInt8)) :
    unitResult ([0x0A].intercalate lines) =
      ((unitRun unitStart (lines.flatMap piecesOf)).1,
        (unitRun unitStart (lines.flatMap piecesOf)).2.unit) := by
  rw [unitResult, unitRun_lines]

/-- The lines are read, and lead from these locals to those. -/
def Reads (st : UnitParse) (lines : List (List UInt8)) (st' : UnitParse) : Prop :=
  unitRun st (lines.flatMap piecesOf) = (true, st')

theorem Reads.nil (st : UnitParse) : Reads st [] st := rfl

theorem Reads.cons {st st' st'' : UnitParse} {line : List UInt8} {lines : List (List UInt8)}
    (hline : unitRun st (piecesOf line) = (true, st')) (hlines : Reads st' lines st'') :
    Reads st (line :: lines) st'' := by
  rw [Reads, List.flatMap_cons, unitRun_append_of_true hline]
  exact hlines

theorem Reads.result {lines : List (List UInt8)} {st : UnitParse} (h : Reads unitStart lines st) :
    unitResult ([0x0A].intercalate lines) = (true, st.unit) := by
  rw [unitResult_lines, h]

variable {line : List UInt8}

/-- Taking the line out makes no difference to what is returned. -/
theorem not_malformed_of_inert
    (h : unitResult ([0x0A].intercalate []) = unitResult ([0x0A].intercalate [line])) :
    ∀ piece ∈ piecesOf line, said piece ≠ .malformed := by
  rw [(Reads.nil unitStart).result, unitResult_lines, List.flatMap_singleton] at h
  exact (unitRun_true_iff _ unitStart).mp (Prod.ext_iff.mp h).1.symm

/-- Nor does it to an assignment behind the line. -/
theorem not_header_of_inert (hok : ∀ piece ∈ piecesOf line, said piece ≠ .malformed)
    (h : ∀ (f : UnitField) (b : Bool),
      unitResult ([0x0A].intercalate [headerLine f, markLine f b]) =
        unitResult ([0x0A].intercalate [headerLine f, line, markLine f b])) :
    ∀ piece ∈ piecesOf line, ∀ name, said piece ≠ .header name := by
  rcases unitRun_section hok with ⟨name, hname⟩ | ⟨-, hno⟩
  · exfalso
    obtain ⟨f, hf⟩ : ∃ f : UnitField, name ≠ f.inSection := by
      by_cases hunit : name = UnitField.description.inSection
      · exact ⟨.user, fun huser => absurd (hunit.symm.trans huser) (by decide)⟩
      · exact ⟨.description, hunit⟩
    -- the line leaves a value in the field, and the assignment does not reach it
    let st := (unitRun ⟨f.inSection, unitStart.unit⟩ (piecesOf line)).2
    have hline : unitRun ⟨f.inSection, unitStart.unit⟩ (piecesOf line) = (true, st) :=
      Prod.ext ((unitRun_true_iff _ _).mpr hok) rfl
    obtain ⟨b, hb⟩ := exists_mark_ne (st.unit.get f)
    have hwithout := (Reads.cons (unitRun_headerLine unitStart f)
      (.cons (unitRun_markLine _ f b) (.nil _))).result
    have hwith := (Reads.cons (unitRun_headerLine unitStart f)
      (.cons hline (.cons (unitRun_markLine _ f b) (.nil _)))).result
    have hunits := (Prod.mk.inj (hwithout.symm.trans ((h f b).trans hwith))).2
    have hget := congrArg (fun unit => UnitService.get unit f) hunits
    have hsection : st.inSection = name := hname _
    dsimp only at hget
    rw [assign_mark, hsection, assign_get, if_neg fun hnames => hf hnames.1] at hget
    exact hb hget
  · exact hno

/-- Nor to one in front of it. -/
theorem not_assignment_of_inert (hok : ∀ piece ∈ piecesOf line, said piece ≠ .malformed)
    (hno : ∀ piece ∈ piecesOf line, ∀ name, said piece ≠ .header name)
    (h : ∀ (f : UnitField) (b : Bool),
      unitResult ([0x0A].intercalate [headerLine f, markLine f b]) =
        unitResult ([0x0A].intercalate [headerLine f, markLine f b, line])) :
    ∀ piece ∈ piecesOf line, ∀ (f : UnitField) (value : List UInt8),
      said piece ≠ .assignment f.key value := by
  intro piece hpiece f value
  rcases unitRun_field f hok hno with ⟨last, hlast⟩ | ⟨-, hother⟩
  · exfalso
    obtain ⟨b, hb⟩ := exists_mark_ne last
    have hline : ∀ st, unitRun st (piecesOf line) = (true, (unitRun st (piecesOf line)).2) :=
      fun st => Prod.ext ((unitRun_true_iff _ st).mpr hok) rfl
    have hwithout := (Reads.cons (unitRun_headerLine unitStart f)
      (.cons (unitRun_markLine _ f b) (.nil _))).result
    have hwith := (Reads.cons (unitRun_headerLine unitStart f)
      (.cons (unitRun_markLine _ f b) (.cons (hline _) (.nil _)))).result
    have hunits := (Prod.mk.inj (hwithout.symm.trans ((h f b).trans hwith))).2
    have hget := congrArg (fun unit => UnitService.get unit f) hunits
    dsimp only at hget
    rw [assign_mark, hlast _ rfl] at hget
    exact hb hget
  · exact hother piece hpiece value

/-- **What makes a line inert**: no piece of it is a header, and none assigns a field. -/
theorem line_inert_iff (line : List UInt8) :
    (∀ before after : List (List UInt8), (∀ other ∈ before ++ after, 0x0A ∉ other) →
      unitResult ([0x0A].intercalate (before ++ after)) =
        unitResult ([0x0A].intercalate (before ++ line :: after))) ↔
      ∀ piece ∈ piecesOf line, IsInert (cstr piece) := by
  constructor
  · intro h
    have hlines : ∀ (f : UnitField) (b : Bool), ∀ other ∈ [headerLine f, markLine f b],
        0x0A ∉ other := fun f b => by simp [notMem_headerLine, notMem_markLine]
    have hok := not_malformed_of_inert (h [] [] fun _ hmem => absurd hmem List.not_mem_nil)
    have hno := not_header_of_inert hok fun f b => h [headerLine f] [markLine f b] (hlines f b)
    have hassign := not_assignment_of_inert hok hno fun f b =>
      h [headerLine f, markLine f b] [] (hlines f b)
    exact fun piece hpiece => (isInert_iff_read _).mpr
      ⟨hok piece hpiece, hno piece hpiece, hassign piece hpiece⟩
  · intro h before after _
    have hline : ∀ st, unitRun st (piecesOf line) = (true, st) := fun st =>
      unitRun_inert st fun piece hpiece => (h piece hpiece).read st
    have hrun : unitRun unitStart ((before ++ after).flatMap piecesOf) =
        unitRun unitStart ((before ++ line :: after).flatMap piecesOf) := by
      rw [List.flatMap_append, List.flatMap_append, List.flatMap_cons, unitRun_append,
        unitRun_append, unitRun_append_of_true (hline _)]
    rw [unitResult_lines, unitResult_lines, hrun]

/-! ## Comments -/

/-- A comment begins with a comment, or with blanks: of 511 blanks in front, the first piece has
no other byte. -/
theorem isRemark_pieceAt_zero {comment : List UInt8}
    (hcomment : firstChar comment = some 0x23 ∨ firstChar comment = some 0x3B) :
    IsRemark (pieceAt comment 0) := by
  obtain ⟨c, hc, hfirst⟩ : ∃ c, (c = 0x23 ∨ c = 0x3B) ∧ firstChar comment = some c :=
    hcomment.elim (fun h => ⟨_, Or.inl rfl, h⟩) fun h => ⟨_, Or.inr rfl, h⟩
  obtain ⟨t, hdrop, hblank, -⟩ := dropWhile_of_firstChar hfirst
  have hsplit : comment.takeWhile isBlank ++ c :: t = comment := by
    rw [← hdrop, List.takeWhile_append_dropWhile]
  have hblanks : ∀ b ∈ comment.takeWhile isBlank, isBlank b = true :=
    fun _ hb => List.mem_takeWhile_imp hb
  generalize comment.takeWhile isBlank = g at hsplit hblanks
  subst hsplit
  have hzero : ∀ b ∈ g, decide (b ≠ 0) = true := fun b hb =>
    decide_eq_true fun h => absurd (hblanks b hb) (by rw [h]; decide)
  rw [pieceAt, Nat.mul_zero, List.drop_zero, IsRemark, firstChar]
  rcases Nat.lt_or_ge g.length 511 with hlt | hge
  · -- the piece has the first character in it
    obtain ⟨n, hn⟩ : ∃ n, 511 - g.length = n + 1 := ⟨510 - g.length, by omega⟩
    have hpiece : cstr ((g ++ c :: t).take 511) = g ++ c :: cstr (t.take n) := by
      rw [List.take_append, List.take_of_length_le hlt.le, hn, List.take_succ_cons, cstr,
        List.takeWhile_append_of_pos hzero, List.takeWhile_cons_of_pos]
      · rfl
      · rcases hc with rfl | rfl <;> rfl
    rw [hpiece, List.dropWhile_append_of_pos hblanks, List.dropWhile_cons_of_neg (by simp [hblank])]
    exact Or.inr (hc.imp (congrArg some) (congrArg some))
  · -- it is blank
    have hpiece : ∀ b ∈ cstr ((g ++ c :: t).take 511), isBlank b = true := by
      intro b hb
      rw [List.take_append_of_le_length hge] at hb
      exact hblanks b (List.mem_of_mem_take ((List.takeWhile_prefix _).sublist.subset hb))
    rw [List.dropWhile_eq_nil_iff.mpr hpiece]
    exact Or.inl rfl

/-- Files with a line in them, and the lines around it. -/
theorem forall_files_iff {line : List UInt8} (hline : 0x0A ∉ line)
    {P : List (List UInt8) → List UInt8 → Prop} :
    (∀ (content : List UInt8) (before after : List (List UInt8)),
      content.splitOn 0x0A = before ++ line :: after → P (before ++ after) content) ↔
      ∀ before after : List (List UInt8), (∀ other ∈ before ++ after, 0x0A ∉ other) →
        P (before ++ after) ([0x0A].intercalate (before ++ line :: after)) := by
  constructor
  · intro h before after hothers
    refine h _ before after (List.splitOn_intercalate 0x0A ?_ (by simp))
    intro other hmem
    rcases List.mem_append.mp hmem with hmem | hmem
    · exact hothers other (List.mem_append_left _ hmem)
    · rcases List.mem_cons.mp hmem with rfl | hmem
      · exact hline
      · exact hothers other (List.mem_append_right _ hmem)
  · intro h content before after hsplit
    have hothers : ∀ other ∈ before ++ after, 0x0A ∉ other := by
      intro other hmem
      have hother : other ∈ content.splitOn 0x0A := by
        rw [hsplit]
        exact (List.Sublist.append_left (List.sublist_cons_self _ _) _).subset hmem
      rw [List.splitOn_eq_splitOnP] at hother
      exact fun h => absurd (delim_of_mem_splitOnP hother _ h) (by decide)
    have hfile := h before after hothers
    rwa [← hsplit, List.intercalate_splitOn] at hfile

/-- The pieces of a line, with the newline and without it. -/
theorem forall_piecesOf_iff {line : List UInt8} (hline : 0x0A ∉ line) :
    (∀ piece ∈ piecesOf line, IsInert (cstr piece)) ↔ ∀ i, IsInert (pieceAt line i) := by
  have hpiece : ∀ i, 511 * i ≤ line.length →
      (IsInert (cstr (((line ++ [0x0A]).drop (511 * i)).take 511)) ↔
        IsInert (pieceAt line i)) := by
    intro i hi
    rw [isInert_iff_read, isInert_iff_read, ← said_piece hi, said]
  constructor
  · intro h i
    by_cases hi : 511 * i ≤ line.length
    · exact (hpiece i hi).mp (h _ ((mem_piecesOf_iff hline).mpr ⟨i, hi, rfl⟩))
    · rw [pieceAt, List.drop_of_length_le (by omega)]
      exact isInert_nil
  · rintro h piece hmem
    obtain ⟨i, hi, rfl⟩ := (mem_piecesOf_iff hline).mp hmem
    exact (hpiece i hi).mpr (h i)

/-- **Which comments are inert**: those whose pieces behind the first say nothing. `fgets` cuts a
long line into pieces, and only the first of them begins like a comment. -/
theorem comment_inert_iff (comment : List UInt8) (hline : 0x0A ∉ comment)
    (hcomment : firstChar comment = some 0x23 ∨ firstChar comment = some 0x3B) :
    (∀ (content : List UInt8) (before after : List (List UInt8)),
      content.splitOn 0x0A = before ++ comment :: after →
        unitResult ([0x0A].intercalate (before ++ after)) = unitResult content) ↔
      ∀ i, IsInert (pieceAt comment (i + 1)) := by
  have hfiles := forall_files_iff hline (P := fun others content =>
    unitResult ([0x0A].intercalate others) = unitResult content)
  rw [hfiles, line_inert_iff, forall_piecesOf_iff hline]
  constructor
  · exact fun h i => h (i + 1)
  · rintro h (_ | i)
    · exact (isRemark_pieceAt_zero hcomment).inert
    · exact h i

/-- A comment of 520 bytes. Its first piece ends in front of `User=root`, which is then read as an
assignment. -/
def longComment : List UInt8 := 0x23 :: (List.replicate 510 0x78 ++ lit "User=root")

theorem comment_inert_iff_long :
    ∃ (content : List UInt8) (before after : List (List UInt8)),
      content.splitOn 0x0A = before ++ longComment :: after ∧
        unitResult ([0x0A].intercalate (before ++ after)) ≠ unitResult content := by
  have hassign : ¬IsInert (pieceAt longComment (0 + 1)) := fun h =>
    h.2 .user (lit "root") (by decide +kernel)
  by_contra hno
  refine hassign ((comment_inert_iff longComment (by decide +kernel) (Or.inl rfl)).mp ?_ 0)
  intro content before after hsplit
  by_contra hne
  exact hno ⟨content, before, after, hsplit, hne⟩

/-- The end of the comment is read as an assignment. -/
theorem longComment_leaks :
    (lit "[Service]\n" ++ longComment).splitOn 0x0A = [lit "[Service]"] ++ longComment :: [] ∧
      firstChar longComment = some 0x23 ∧
      (unitResult (lit "[Service]\n" ++ longComment)).2.user = lit "root" ∧
      (unitResult ([0x0A].intercalate ([lit "[Service]"] ++ []))).2.user = [] := by
  refine ⟨?_, ?_, ?_, ?_⟩ <;> decide +kernel

end WaluOs
