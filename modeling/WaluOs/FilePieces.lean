import WaluOs.CStrings

/-!
# The pieces of a file

A line that does not fit the buffer is read in pieces. `mem_fgets_line_iff` says which pieces a
line has. In a file, a piece begins where the `column` is a multiple of the room in the buffer:
`fgets_split` says so of every piece that is read, and `fgets_of_column` that there is a piece at
every such place.
-/

namespace CStrings

/-! ## Lines that do not fit -/

/-- What is read of a line has nothing to do with what is behind it. -/
theorem fgetsFrom_newline (room : ℕ) (text rest : List UInt8) : ∀ line : List UInt8,
    fgetsFrom room line (text ++ 0x0A :: rest) =
      fgetsFrom room line (text ++ [0x0A]) ++ fgetsFrom room [] rest := by
  induction text with
  | nil =>
    intro line
    rw [List.nil_append, List.nil_append, fgetsFrom, if_pos (Or.inl rfl), fgetsFrom,
      if_pos (Or.inl rfl)]
    rfl
  | cons b text ih =>
    intro line
    rw [List.cons_append, List.cons_append, fgetsFrom, fgetsFrom]
    split_ifs
    · rw [ih, List.cons_append]
    · rw [ih]

theorem fgets_newline (size : ℕ) (line rest : List UInt8) :
    fgets size (line ++ 0x0A :: rest) = fgets size (line ++ [0x0A]) ++ fgets size rest :=
  fgetsFrom_newline _ _ _ _

/-- A file, line by line. -/
theorem fgets_lines (size : ℕ) : ∀ {lines : List (List UInt8)}, lines ≠ [] →
    fgets size ([0x0A].intercalate lines ++ [0x0A]) =
      lines.flatMap fun line => fgets size (line ++ [0x0A])
  | [], h => absurd rfl h
  | [line], _ => by
    rw [List.intercalate_singleton, List.flatMap_singleton]
  | line :: line' :: lines, _ => by
    rw [List.intercalate_cons_cons, List.append_assoc, List.append_assoc, List.singleton_append,
      fgets_newline, fgets_lines size (List.cons_ne_nil line' lines)]
    rfl

/-- What a newline at the end of a text changes. -/
theorem fgetsFrom_end (room : ℕ) (text : List UInt8) : ∀ line : List UInt8,
    ∃ front last, fgetsFrom room line text = front ++ (if last = [] then [] else [last]) ∧
      fgetsFrom room line (text ++ [0x0A]) = front ++ [last ++ [0x0A]] := by
  induction text with
  | nil =>
    intro line
    exact ⟨[], line, rfl, by rw [List.nil_append, fgetsFrom, if_pos (Or.inl rfl)]; rfl⟩
  | cons b text ih =>
    intro line
    rw [List.cons_append, fgetsFrom, fgetsFrom]
    split_ifs
    · obtain ⟨front, last, hend, hnewline⟩ := ih []
      exact ⟨(line ++ [b]) :: front, last, by rw [hend]; rfl, by rw [hnewline]; rfl⟩
    · exact ih _

theorem fgets_end (size : ℕ) (text : List UInt8) :
    ∃ front last, fgets size text = front ++ (if last = [] then [] else [last]) ∧
      fgets size (text ++ [0x0A]) = front ++ [last ++ [0x0A]] :=
  fgetsFrom_end _ _ _

/-- The buffer is full. -/
theorem fgets_full {room : ℕ} {text : List UInt8} (hline : 0x0A ∉ text) (hroom : 0 < room)
    (hfull : text.length = room) (rest : List UInt8) :
    fgets (room + 1) (text ++ rest) = text :: fgets (room + 1) rest := by
  have hne : text ≠ [] := List.ne_nil_of_length_pos (by omega)
  obtain ⟨front, b, rfl⟩ := text.eq_nil_or_concat'.resolve_left hne
  rw [List.length_append, List.length_singleton] at hfull
  have hfront : 0x0A ∉ front := fun h => hline (List.mem_append_left _ h)
  rw [fgets, Nat.add_sub_cancel, List.append_assoc,
    fgetsFrom_append front [] hfront (by rw [List.length_nil]; omega), List.singleton_append,
    List.nil_append, fgetsFrom, if_pos (Or.inr hfull), fgets, Nat.add_sub_cancel]

/-- A line that does not fit, taken off. -/
theorem fgets_long {room : ℕ} {line : List UInt8} (hline : 0x0A ∉ line) (hroom : 0 < room)
    (hlong : room ≤ line.length) (rest : List UInt8) :
    fgets (room + 1) (line ++ rest) =
      line.take room :: fgets (room + 1) (line.drop room ++ rest) := by
  have hread := fgets_full (fun h => hline (List.mem_of_mem_take h)) hroom
    (List.length_take_of_le hlong) (line.drop room ++ rest)
  rwa [← List.append_assoc, List.take_append_drop] at hread

/-- **The pieces of a line** begin where the buffer was full, at the multiples of the room in it.
The newline belongs to the last piece, and is one by itself behind a full one. -/
theorem mem_fgets_line_iff {room : ℕ} (hroom : 0 < room) {piece : List UInt8} :
    ∀ {line : List UInt8}, 0x0A ∉ line →
      (piece ∈ fgets (room + 1) (line ++ [0x0A]) ↔
        ∃ i, room * i ≤ line.length ∧ piece = ((line ++ [0x0A]).drop (room * i)).take room) := by
  intro line
  induction hlength : line.length using Nat.strong_induction_on generalizing line with
  | _ n ih =>
  intro hline
  subst hlength
  by_cases hfits : line.length < room
  · have hread : fgets (room + 1) (line ++ [0x0A]) = [line ++ [0x0A]] :=
      fgets_line hline (Nat.succ_lt_succ hfits) []
    have htake : (line ++ [0x0A]).take room = line ++ [0x0A] :=
      List.take_of_length_le (by rw [List.length_append, List.length_singleton]; omega)
    rw [hread, List.mem_singleton]
    constructor
    · rintro rfl
      exact ⟨0, Nat.zero_le _, htake.symm⟩
    · rintro ⟨i, hi, rfl⟩
      obtain rfl : i = 0 := Nat.eq_zero_of_not_pos fun hpos => by
        have hle := Nat.le_mul_of_pos_right room hpos
        omega
      exact htake
  · have hrest : (line.drop room).length < line.length := by
      rw [List.length_drop]
      omega
    have htake : (line ++ [0x0A]).take room = line.take room :=
      List.take_append_of_le_length (by omega)
    have hdrop : ∀ i, (line ++ [0x0A]).drop (room * (i + 1)) =
        (line.drop room ++ [0x0A]).drop (room * i) := by
      intro i
      have hroom : room ≤ line.length := by omega
      rw [Nat.mul_succ, Nat.add_comm, ← List.drop_drop, List.drop_append_of_le_length hroom]
    rw [fgets_long hline hroom (by omega), List.mem_cons,
      ih _ hrest rfl fun h => hline (List.mem_of_mem_drop h)]
    constructor
    · rintro (rfl | ⟨i, hi, rfl⟩)
      · exact ⟨0, Nat.zero_le _, htake.symm⟩
      · rw [List.length_drop] at hi
        exact ⟨i + 1, by rw [Nat.mul_succ]; omega, by rw [hdrop]⟩
    · rintro ⟨_ | i, hi, rfl⟩
      · exact Or.inl htake
      · rw [Nat.mul_succ] at hi
        exact Or.inr ⟨i, by rw [List.length_drop]; omega, by rw [hdrop]⟩

/-! ## Columns -/

/-- The number of bytes behind the last newline. It is where in its line a text ends. -/
def column (text : List UInt8) : ℕ := text.foldl (fun n b => if b = 0x0A then 0 else n + 1) 0

@[simp] theorem column_nil : column [] = 0 := rfl

theorem column_concat (text : List UInt8) (b : UInt8) :
    column (text ++ [b]) = if b = 0x0A then 0 else column text + 1 := by
  rw [column, List.foldl_append]
  rfl

theorem column_append {text : List UInt8} (h : 0x0A ∉ text) (before : List UInt8) :
    column (before ++ text) = column before + text.length := by
  induction text using List.reverseRecOn with
  | nil => rw [List.append_nil]; rfl
  | append_singleton text b ih =>
    have hb : b ≠ 0x0A := fun hb => h (by simp [hb])
    have htext : 0x0A ∉ text := fun hmem => h (List.mem_append_left _ hmem)
    rw [← List.append_assoc, column_concat, if_neg hb, ih htext, List.length_append,
      List.length_singleton, Nat.add_assoc]

theorem column_eq_zero_iff {text : List UInt8} :
    column text = 0 ↔ text = [] ∨ ∃ before, text = before ++ [0x0A] := by
  rcases text.eq_nil_or_concat' with rfl | ⟨before, b, rfl⟩
  · simp
  · rw [column_concat]
    by_cases hb : b = 0x0A
    · simp [hb]
    · simp [hb]

/-- The first line of a text. -/
theorem takeWhile_mem_splitOn (text : List UInt8) :
    (text.takeWhile fun b => b ≠ 0x0A) ∈ text.splitOn 0x0A := by
  by_cases h : 0x0A ∈ text
  · obtain ⟨line, rest, rfl, hline⟩ := List.eq_append_cons_of_mem h
    have hsep : ∀ b ∈ line, (b == 0x0A) = false := fun b hb =>
      beq_eq_false_iff_ne.mpr fun heq => hline (heq ▸ hb)
    rw [(cut_append_cons hline rest).1, List.splitOn_eq_splitOnP,
      List.splitOnP_append_cons_of_forall_mem hsep _ (by simp)]
    exact List.mem_cons_self
  · have hsep : ∀ b ∈ text, (b == 0x0A) = false := fun b hb =>
      beq_eq_false_iff_ne.mpr fun heq => h (heq ▸ hb)
    have hall : (text.takeWhile fun b => b ≠ 0x0A) = text :=
      List.takeWhile_eq_self_iff.mpr fun b hb => decide_eq_true fun heq => h (heq ▸ hb)
    rw [hall, List.splitOn_eq_splitOnP, List.splitOnP_eq_singleton hsep]
    exact List.mem_singleton_self _

/-- A place where a line begins. -/
theorem line_mem_splitOn {before : List UInt8} (h : column before = 0) (text : List UInt8) :
    (text.takeWhile fun b => b ≠ 0x0A) ∈ (before ++ text).splitOn 0x0A := by
  rcases column_eq_zero_iff.mp h with rfl | ⟨front, rfl⟩
  · exact takeWhile_mem_splitOn text
  · rw [List.append_assoc, List.singleton_append, List.splitOn_eq_splitOnP,
      List.splitOnP_append_cons _ _ (by simp), ← List.splitOn_eq_splitOnP]
    exact List.mem_append_right _ (takeWhile_mem_splitOn text)

/-- What is read of a text that begins a piece, without a newline. A piece ends with the line or
when the buffer is full, whichever comes first. -/
def chunk (room : ℕ) (text : List UInt8) : List UInt8 :=
  (text.takeWhile fun b => b ≠ 0x0A).take room

theorem newline_notMem_chunk (room : ℕ) (text : List UInt8) : 0x0A ∉ chunk room text := by
  intro h
  have hne := List.mem_takeWhile_imp (List.mem_of_mem_take h)
  simp at hne

variable {room : ℕ}

/-- One call of `fgets`. It reads a chunk and, if there is room left, the newline behind it; the
rest of the text is left for the next calls. -/
theorem fgets_step (hroom : 0 < room) {text : List UInt8} (hne : text ≠ []) :
    ∃ stop rest, fgets (room + 1) text = (chunk room text ++ stop) :: fgets (room + 1) rest ∧
      text = (chunk room text ++ stop) ++ rest ∧ chunk room text ++ stop ≠ [] ∧
      (stop = [0x0A] ∧ (chunk room text).length < room ∨
        stop = [] ∧ ((chunk room text).length = room ∨ rest = [])) := by
  have hline : 0x0A ∉ text.takeWhile fun b => b ≠ 0x0A := fun h => by
    have hne := List.mem_takeWhile_imp h
    simp at hne
  have hsplit := List.takeWhile_append_dropWhile (p := fun b => decide (b ≠ 0x0A)) (l := text)
  have hrest := List.head?_dropWhile_not (fun b => decide (b ≠ 0x0A)) text
  rw [chunk]
  generalize (text.takeWhile fun b => decide (b ≠ 0x0A)) = line at *
  generalize (text.dropWhile fun b => decide (b ≠ 0x0A)) = tail at *
  subst hsplit
  by_cases hfull : room ≤ line.length
  · have hlength : (line.take room).length = room := List.length_take_of_le hfull
    refine ⟨[], line.drop room ++ tail, ?_, ?_, ?_, Or.inr ⟨rfl, Or.inl hlength⟩⟩
    · rw [fgets_long hline hroom hfull, List.append_nil]
    · rw [List.append_nil, ← List.append_assoc, List.take_append_drop]
    · rw [List.append_nil]
      exact List.ne_nil_of_length_pos (by omega)
  · have hfits : line.length + 1 < room + 1 := by omega
    rw [List.take_of_length_le (Nat.le_of_not_le hfull)]
    cases tail with
    | nil =>
      rw [List.append_nil] at hne ⊢
      refine ⟨[], [], ?_, ?_, ?_, Or.inr ⟨rfl, Or.inr rfl⟩⟩
      · rw [fgets_last hline hfits, if_neg hne, List.append_nil]
        rfl
      · rw [List.append_nil, List.append_nil]
      · rwa [List.append_nil]
    | cons b tail =>
      obtain rfl : b = 0x0A := by simpa using hrest
      refine ⟨[0x0A], tail, fgets_line hline hfits tail, ?_, by simp, Or.inl ⟨rfl, by omega⟩⟩
      rw [List.append_assoc, List.singleton_append]

/-- A piece that ends a line, or fills the buffer, leads to the place of another piece. -/
theorem dvd_column_append {before first stop : List UInt8} (hfirst : 0x0A ∉ first)
    (hbefore : room ∣ column before) (h : stop = [0x0A] ∨ stop = [] ∧ first.length = room) :
    room ∣ column (before ++ (first ++ stop)) := by
  rcases h with rfl | ⟨rfl, hfull⟩
  · rw [← List.append_assoc, column_concat, if_pos rfl]
    exact Nat.dvd_zero room
  · rw [List.append_nil, column_append hfirst, hfull]
    exact Nat.dvd_add hbefore (Nat.dvd_refl room)

/-- **Where the pieces are**: each begins at a multiple of `room`. -/
theorem fgets_split (hroom : 0 < room) {piece : List UInt8} {back : List (List UInt8)} :
    ∀ (front : List (List UInt8)) {before text : List UInt8}, room ∣ column before →
      fgets (room + 1) text = front ++ piece :: back →
        ∃ stop rest, text = front.flatten ++ rest ∧ room ∣ column (before ++ front.flatten) ∧
          piece = chunk room rest ++ stop ∧ (stop = [0x0A] ∨ stop = []) ∧ piece ≠ []
  | front, before, text, hbefore, h => by
    have hne : text ≠ [] := by
      rintro rfl
      exact absurd h.symm (by simp [fgets, fgetsFrom])
    obtain ⟨stop, rest, hread, htext, hpiece, hstop⟩ := fgets_step hroom hne
    cases front with
    | nil =>
      obtain ⟨rfl, -⟩ := List.cons.inj (hread.symm.trans h)
      exact ⟨stop, text, rfl, by simpa using hbefore, rfl, hstop.imp And.left And.left, hpiece⟩
    | cons first front =>
      obtain ⟨rfl, hrest⟩ := List.cons.inj (hread.symm.trans h)
      have hnext : room ∣ column (before ++ (chunk room text ++ stop)) := by
        refine dvd_column_append (newline_notMem_chunk _ _) hbefore
          (hstop.imp And.left (And.imp_right fun hend => hend.resolve_right ?_))
        rintro rfl
        exact absurd hrest.symm (by simp [fgets, fgetsFrom])
      obtain ⟨stop', rest', rfl, hcolumn, hpiece⟩ := fgets_split hroom front hnext hrest
      refine ⟨stop', rest', ?_, ?_, hpiece⟩
      · rw [List.flatten_cons, List.append_assoc, ← htext]
      · rwa [List.flatten_cons, ← List.append_assoc]

/-- **There is a piece** at each such place: where the room divides the column, a piece begins,
whatever stands in front of it. -/
theorem fgets_of_column (hroom : 0 < room) {text : List UInt8} (hne : text ≠ []) :
    ∀ {before base : List UInt8}, room ∣ column base → room ∣ column (base ++ before) →
      ∃ front stop back, fgets (room + 1) (before ++ text) =
          front ++ (chunk room text ++ stop) :: back ∧
        front.flatten = before ∧ (stop = [0x0A] ∨ stop = []) := by
  intro before
  induction hlength : before.length using Nat.strong_induction_on generalizing before with
  | _ n ih =>
  intro base hbase hcolumn
  subst hlength
  by_cases hnil : before = []
  · subst hnil
    obtain ⟨stop, rest, hread, -, -, hstop⟩ := fgets_step hroom hne
    exact ⟨[], stop, _, hread, rfl, hstop.imp And.left And.left⟩
  have hne' : before ++ text ≠ [] := List.append_ne_nil_of_left_ne_nil hnil _
  obtain ⟨stop, rest, hread, htext, hpiece, hstop⟩ := fgets_step hroom hne'
  have hnewline := newline_notMem_chunk room (before ++ text)
  have hfull : (chunk room (before ++ text)).length ≤ room := by
    rw [chunk, List.length_take]
    exact Nat.min_le_left _ _
  generalize chunk room (before ++ text) = first at *
  -- the first piece ends in front of the text
  have hle : (first ++ stop).length ≤ before.length := by
    by_contra hlt
    have hlength : before.length ≤ first.length := by
      rw [List.length_append] at hlt
      rcases hstop with ⟨rfl, -⟩ | ⟨rfl, -⟩
      · rw [List.length_singleton] at hlt
        omega
      · rw [List.length_nil] at hlt
        omega
    have hfirst : first <+: before ++ text := by
      rw [htext, List.append_assoc]
      exact List.prefix_append _ _
    have hpart : before <+: first :=
      List.prefix_of_prefix_length_le (List.prefix_append _ _) hfirst hlength
    rw [column_append fun h => hnewline (hpart.subset h)] at hcolumn
    have hroom := Nat.le_of_dvd (List.length_pos_of_ne_nil hnil)
      ((Nat.dvd_add_right hbase).mp hcolumn)
    rcases hstop with ⟨-, hlt⟩ | ⟨rfl, -⟩
    · omega
    · rw [List.append_nil] at hlt
      omega
  have hprefix : first ++ stop <+: before ++ text := by
    rw [htext]
    exact List.prefix_append _ _
  obtain ⟨before', rfl⟩ := List.prefix_of_prefix_length_le hprefix (List.prefix_append _ _) hle
  rw [List.append_assoc] at htext
  obtain rfl := List.append_cancel_left htext
  have hshorter : before'.length < ((first ++ stop) ++ before').length := by
    rw [List.length_append]
    have hpos := List.length_pos_of_ne_nil hpiece
    omega
  have hnext : room ∣ column (base ++ (first ++ stop)) := by
    refine dvd_column_append hnewline hbase
      (hstop.imp And.left (And.imp_right fun hend => hend.resolve_right ?_))
    exact List.append_ne_nil_of_right_ne_nil _ hne
  rw [← List.append_assoc] at hcolumn
  obtain ⟨front, stop', back, hread', hflat, hstop'⟩ := ih _ hshorter rfl hnext hcolumn
  refine ⟨(first ++ stop) :: front, stop', back, ?_, ?_, hstop'⟩
  · rw [hread, hread', List.cons_append]
  · rw [List.flatten_cons, hflat]

end CStrings
