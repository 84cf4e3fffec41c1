import WaluOs.ConsoleDecimal
import WaluOs.LineEditor
import WaluOs.Prefixes

/-!
# What is echoed, and what an erase takes off the screen

The line editor echoes a data byte with `console_putc` and an erase with `console_backspace`,
and keeps no record of how many cells an echo took. A tab takes up to four, and a backspace
takes back one: erasing a line undoes its echo exactly when every tab in it took one cell
(`echoErase_iff`).

`playCall` performs the calls that a trace of calls notes. The screen is a window on the page
that the echo goes on writing, from the cell where the line starts.
-/

namespace WaluOs

open Loops Scrollback

/-! ## The calls -/

/-- `console_write_hex` -/
def consoleWriteHex (c : Console) (value : UInt64) : Console :=
  (List.range 16).foldl (fun c i =>
    let nibble := UInt8.ofNat (value.toNat / 16 ^ (15 - i) % 16)
    consolePutc c (if nibble < 10 then 0x30 + nibble else 0x41 + nibble - 10))
    ([0x30, 0x78].foldl consolePutc c)

/-- What a call does to the console; those of other modules do nothing to it themselves. The TTY
and the shell are modelled with the calls they make, and this is what gives these calls their
meaning. -/
def playCall (c : Console) : Call → Console
  | .consolePutc byte => consolePutc c byte
  | .consoleWrite bytes => bytes.foldl consolePutc c
  | .consoleWriteDec value => consoleWriteDec c value
  | .consoleWriteHex value => consoleWriteHex c value
  | .consoleBackspace => consoleBackspace c
  | .consoleClear => consoleClear c
  | .rustHistoryPush _ => c
  | .executeCommand _ => c

/-- The console behind the calls that `s'` has made since `s`. The trace of calls only grows, so
what is left of it behind the first part is what the code has done in between. -/
def consoleAfter (c : Console) (s s' : Sys) : Console :=
  (s'.calls.drop s.calls.length).foldl playCall c

/-! ## The line -/

/-- Printable ASCII, or a tab. Each of these bytes is drawn by itself; what else the line takes
are bytes from 0x80 on, which are drawn only when a sequence of them is complete. -/
def AsciiData (byte : UInt8) : Prop := (0x20 ≤ byte ∧ byte ≤ 0x7E) ∨ byte = 0x09

instance : DecidablePred AsciiData := fun _ => inferInstanceAs (Decidable (_ ∨ _))

/-- One of the two erase bytes, 0x08 and 0x7F. The TTY does the same for both. -/
def IsErase (byte : UInt8) : Prop := byte = 0x08 ∨ byte = 0x7F

instance : DecidablePred IsErase := fun _ => inferInstanceAs (Decidable (_ ∨ _))

theorem AsciiData.dataByte {byte : UInt8} (h : AsciiData byte) : DataByte byte := by
  refine h.imp_left fun h => ⟨h.1, ?_⟩
  rintro rfl
  exact absurd h.2 (by decide)

/-- The TTY edits a line with echo on; `line` is pending, and `calls` were made. The calls are in
it because the picture of the line on the screen is what they have drawn. -/
structure Echoes (s : Sys) (line : List UInt8) (calls : List Call) : Prop where
  editing : Editing s
  echo : s.tty.ttyEcho = true
  line : s.tty.ttyLine = line
  calls : s.calls = calls

/-- What an edit leads to. -/
theorem Edits.echoes {s s' : Sys} {l : LineState} {cs calls : List Call} {line : List UInt8}
    (h : Edits s s' (l, cs)) (hs : Echoes s line calls) : Echoes s' l.line (calls ++ cs) :=
  ⟨⟨h.canonical.trans hs.editing.canonical, h.escape.trans hs.editing.idle⟩, h.echo.trans hs.echo,
    congrArg LineState.line h.state, by rw [h.calls, hs.calls]⟩

/-- A data byte is echoed. -/
theorem Echoes.data {s : Sys} {line : List UInt8} {calls : List Call} (h : Echoes s line calls)
    {byte : UInt8} (hbyte : AsciiData byte) (hroom : line.length + 1 < ttyLineBufferSize) :
    Echoes (ttyReceive s byte) (line ++ [byte]) (calls ++ [.consolePutc byte]) := by
  have hedit := ttyReceive_room h.editing hbyte.dataByte (by rw [h.line]; exact hroom)
  rw [h.echo, h.line] at hedit
  exact hedit.echoes h

/-- So is an erase, if there is something to erase. -/
theorem Echoes.erase {s : Sys} {line : List UInt8} {calls : List Call} (h : Echoes s line calls)
    {byte : UInt8} (hbyte : IsErase byte) (hline : line ≠ []) :
    Echoes (ttyReceive s byte) line.dropLast (calls ++ [.consoleBackspace]) := by
  have hne : byte ≠ 0x1B := by rcases hbyte with rfl | rfl <;> decide
  have hedit := ttyReceive_edits h.editing hne
  have heq : editLine s.tty.ttyEcho s.lineState byte =
      (⟨s.tty.ttyLine.dropLast, s.tty.ttyLineTruncated⟩, [.consoleBackspace]) := by
    have hpos : s.lineState.line.length > 0 := by
      refine List.length_pos_iff.mpr ?_
      rw [Sys.lineState, h.line]
      exact hline
    have h3 : byte ≠ 0x03 := by rcases hbyte with rfl | rfl <;> decide
    have hc : byte ≠ 0x0C := by rcases hbyte with rfl | rfl <;> decide
    have hdel : byte = 0x08 ∨ byte = 0x7F := hbyte
    rw [editLine, if_neg h3, if_neg hc, if_pos hdel, if_pos hpos, h.echo]
    rfl
  rw [heq, h.line] at hedit
  exact hedit.echoes h

/-- **A line is typed.** -/
theorem Echoes.type (ds : List UInt8) :
    ∀ {s : Sys} {line : List UInt8} {calls : List Call}, Echoes s line calls →
      (∀ b ∈ ds, AsciiData b) → line.length + ds.length < ttyLineBufferSize →
        Echoes (ds.foldl ttyReceive s) (line ++ ds) (calls ++ ds.map .consolePutc) := by
  induction ds with
  | nil =>
    intro s line calls h _ _
    rw [List.append_nil, List.map_nil, List.append_nil]
    exact h
  | cons b ds ih =>
    intro s line calls h hds hroom
    obtain ⟨hb, hds⟩ := List.forall_mem_cons.mp hds
    rw [List.length_cons] at hroom
    have hnext := ih (h.data hb (by omega)) hds (by
      rw [List.length_append, List.length_singleton]
      omega)
    rwa [List.append_assoc, List.append_assoc] at hnext

/-- **And erased.** -/
theorem Echoes.eraseAll (es : List UInt8) :
    ∀ {s : Sys} {line : List UInt8} {calls : List Call}, Echoes s line calls →
      (∀ b ∈ es, IsErase b) → es.length = line.length →
        Echoes (es.foldl ttyReceive s) []
          (calls ++ List.replicate es.length .consoleBackspace) := by
  induction es with
  | nil =>
    intro s line calls h _ hlen
    rw [List.eq_nil_of_length_eq_zero hlen.symm] at h
    rw [List.length_nil, List.replicate_zero, List.append_nil]
    exact h
  | cons b es ih =>
    intro s line calls h hes hlen
    obtain ⟨hb, hes⟩ := List.forall_mem_cons.mp hes
    rw [List.length_cons] at hlen
    have hline : line ≠ [] := by
      rintro rfl
      exact absurd hlen (Nat.succ_ne_zero _)
    have hnext := ih (h.erase hb hline) hes (by rw [List.length_dropLast]; omega)
    rwa [List.append_assoc] at hnext

/-! ## The cells of an echo -/

/-- How many cells the echo of a byte takes, from column `col` on. -/
def echoWidth (col : ℕ) (byte : UInt8) : ℕ := if byte = 0x09 then 4 - col % 4 else 1

/-- How many cells the echo of a number of bytes takes, from the column `col` on. A tab is as wide
as it is far to the next tab stop, so the width depends on where the bytes before it have led. -/
def echoCells (cols : ℕ) : ℕ → List UInt8 → ℕ
  | _, [] => 0
  | col, b :: bs => echoWidth col b + echoCells cols ((col + echoWidth col b) % cols) bs

theorem echoWidth_pos (col : ℕ) (byte : UInt8) : 1 ≤ echoWidth col byte := by
  rw [echoWidth]
  split <;> omega

/-- It takes one, unless it is that of a tab that is not typed in front of a tab stop. -/
theorem echoWidth_eq_one_iff {col : ℕ} {byte : UInt8} :
    echoWidth col byte = 1 ↔ (byte = 0x09 → col % 4 = 3) := by
  rw [echoWidth]
  split
  · rename_i htab
    refine Iff.trans ?_ (forall_prop_of_true htab).symm
    omega
  · rename_i hother
    exact iff_of_true rfl fun htab => absurd htab hother

theorem length_le_echoCells (cols : ℕ) (ds : List UInt8) :
    ∀ col, ds.length ≤ echoCells cols col ds := by
  induction ds with
  | nil => exact fun _ => le_rfl
  | cons b ds ih =>
    intro col
    have hb := echoWidth_pos col b
    have hds := ih ((col + echoWidth col b) % cols)
    rw [List.length_cons, echoCells]
    omega

/-- Every tab is typed in the last column in front of a tab stop, if all bytes take one cell. An
erase takes back one cell for each byte, and this is when that is as many as the echo has taken.
-/
def TabsTakeOneCell (cols col : ℕ) (ds : List UInt8) : Prop :=
  ∀ p, p ++ [0x09] <+: ds → (col + p.length) % cols % 4 = 3

/-- **The echo takes a cell for each byte** exactly when every tab takes one cell. -/
theorem echoCells_eq_length_iff (cols : ℕ) (ds : List UInt8) :
    ∀ col < cols, echoCells cols col ds = ds.length ↔ TabsTakeOneCell cols col ds := by
  induction ds with
  | nil => exact fun _ _ => iff_of_true rfl fun p hp => absurd hp Prefixes.not_concat_prefix_nil
  | cons b ds ih =>
    intro col hcol
    have hwidth := echoWidth_pos col b
    have hrest := length_le_echoCells cols ds ((col + echoWidth col b) % cols)
    have hsplit : echoCells cols col (b :: ds) = (b :: ds).length ↔
        echoWidth col b = 1 ∧ echoCells cols ((col + 1) % cols) ds = ds.length := by
      rw [echoCells, List.length_cons]
      constructor
      · intro heq
        have hone : echoWidth col b = 1 := by omega
        rw [hone] at heq
        exact ⟨hone, by omega⟩
      · rintro ⟨hone, heq⟩
        rw [hone, heq, Nat.add_comm]
    rw [hsplit, echoWidth_eq_one_iff, ih _ (Nat.mod_lt _ (Nat.zero_lt_of_lt hcol))]
    constructor
    · rintro ⟨hb, hds⟩ p hp
      rcases p with _ | ⟨b', p⟩
      · obtain ⟨rfl, -⟩ := List.cons_prefix_cons.mp hp
        rw [List.length_nil, Nat.add_zero, Nat.mod_eq_of_lt hcol]
        exact hb rfl
      · have htail := hds p (List.cons_prefix_cons.mp hp).2
        rwa [Nat.mod_add_mod, Nat.add_assoc, Nat.add_comm 1] at htail
    · intro h
      refine ⟨fun hb => ?_, fun p hp => ?_⟩
      · have hhead := h [] (by rw [hb]; exact List.cons_prefix_cons.mpr ⟨rfl, List.nil_prefix⟩)
        rwa [List.length_nil, Nat.add_zero, Nat.mod_eq_of_lt hcol] at hhead
      · have htail := h (b :: p) (List.cons_prefix_cons.mpr ⟨rfl, hp⟩)
        rwa [Nat.mod_add_mod, Nat.add_assoc, Nat.add_comm 1]

/-! ## The screen -/

/-- What is blank in the colour of the console. -/
def Console.blank (c : Console) : UInt16 := vgaEntry 0x20 (currentVgaColor c.toTerm)

/-- The screen as the start of a page. -/
def Console.page (c : Console) : Page UInt16 where
  cells r k := if r < c.termRows then c.cell r k else c.blank
  row := c.cursorRow
  col := c.cursorCol

/-- The console `c` is `c₀` after an echo of `w` cells. -/
def Echoed (c₀ : Console) (w : ℕ) (c : Console) : Prop :=
  ∃ s p, Screens c₀.toGeometry (currentVgaColor c₀.toTerm) c s ∧
    Window c₀.termRows c₀.termCols c₀.blank (p.offset c₀.termRows) s p ∧
      Wrote c₀.termCols c₀.page w p

/-- It is `c₀` after an echo of `w` cells, that scrolled by `top` rows, and `m` backspaces. -/
def BackedUp (c₀ : Console) (w top m : ℕ) (c : Console) : Prop :=
  ∃ s p, Screens c₀.toGeometry (currentVgaColor c₀.toTerm) c s ∧
    Window c₀.termRows c₀.termCols c₀.blank top s p ∧ TookBack c₀.termCols c₀.blank c₀.page w m p

/-- The console reads text, and its cursor is on the screen. A console in the middle of a sequence
would take the first bytes of the echo for the rest of it. -/
structure AtText (c : Console) : Prop where
  ground : c.ansiParserState = .ground
  row_lt : c.cursorRow < c.termRows
  col_lt : c.cursorCol < c.termCols

variable {c₀ c : Console} {w top m : ℕ}

theorem AtText.echoed (h : AtText c) : Echoed c 0 c := by
  have hoffset : c.page.offset c.termRows = 0 := by
    have hrow := h.row_lt
    show c.cursorRow - (c.termRows - 1) = 0
    omega
  refine ⟨c.page, c.page, ⟨rfl, h.ground, rfl, rfl, rfl, fun r k hr _ => (if_pos hr).symm⟩, ?_,
    .start h.col_lt⟩
  rw [hoffset]
  exact ⟨h.row_lt, h.col_lt, rfl, rfl, fun _ _ _ => rfl, fun r k hr =>
    if_neg (Nat.not_lt.mpr (Nat.zero_add c.termRows ▸ hr))⟩

/-- Where the cursor is. -/
theorem Echoed.cursorCol (h : Echoed c₀ w c) :
    c.cursorCol = (c₀.cursorCol + w) % c₀.termCols := by
  obtain ⟨s, p, hs, hwindow, hwrote⟩ := h
  have hcol := Page.col_eq hwrote.col_lt
  rw [hwrote.pos] at hcol
  rw [hs.col, hwindow.col, hcol]
  show (c₀.cursorRow * c₀.termCols + c₀.cursorCol + w) % c₀.termCols = _
  rw [Nat.add_assoc, Nat.mul_comm, Nat.mul_add_mod]

theorem Echoed.serial (h : Echoed c₀ w c) (byte : UInt8) :
    Echoed c₀ w (serialWriteChar c byte) := by
  obtain ⟨s, p, hs, hrest⟩ := h
  exact ⟨s, p, serialWriteChar_screens hs byte, hrest⟩

/-- One cell. -/
theorem Echoed.put (h : Echoed c₀ w c) {byte : UInt8} (hbyte : byte < 0x80) :
    Echoed c₀ (w + 1) (rawPutVisible c byte) := by
  obtain ⟨s, p, hs, hwindow, hwrote⟩ := h
  exact ⟨_, _, rawPutVisible_screens hs hwindow.row_lt hwindow.col_lt hbyte, hwindow.put _,
    hwrote.put _⟩

/-- **One byte.** -/
theorem Echoed.putc (h : Echoed c₀ w c) {byte : UInt8} (hbyte : AsciiData byte) :
    Echoed c₀ (w + echoWidth c.cursorCol byte) (consolePutc c byte) := by
  have hserial := h.serial byte
  have hground : c.ansiParserState = .ground := by
    obtain ⟨s, p, hs, -⟩ := h
    exact hs.ground
  rw [consolePutc_ground hground (hbyte.dataByte.ne (by decide))]
  have hcol : (serialWriteChar c byte).cursorCol = c.cursorCol := by rw [serialWriteChar_toTerm]
  rcases hbyte with ⟨hlo, hhi⟩ | rfl
  · have hother : byte ≠ 0x09 := by
      rintro rfl
      exact absurd hlo (by decide)
    rw [consoleHandleGroundByte_printable _ hlo hhi, echoWidth, if_neg hother]
    exact hserial.put (UInt8.lt_of_le_of_lt hhi (by decide))
  · rw [echoWidth, if_pos rfl, ← hcol]
    exact forRange_rule (fun i c => Echoed c₀ (w + i) c) (Nat.zero_le _) hserial
      fun i u _ _ hu => hu.put (by decide)

/-- **A line.** -/
theorem Echoed.puts (ds : List UInt8) :
    ∀ {c : Console} {w : ℕ}, Echoed c₀ w c → (∀ b ∈ ds, AsciiData b) →
      Echoed c₀ (w + echoCells c₀.termCols c.cursorCol ds) (ds.foldl consolePutc c) := by
  induction ds with
  | nil => exact fun h _ => h
  | cons b ds ih =>
    intro c w h hds
    obtain ⟨hb, hds⟩ := List.forall_mem_cons.mp hds
    have hnext := h.putc hb
    have hrest := ih hnext hds
    have hcol : (consolePutc c b).cursorCol =
        (c.cursorCol + echoWidth c.cursorCol b) % c₀.termCols := by
      rw [hnext.cursorCol, h.cursorCol, Nat.mod_add_mod, Nat.add_assoc]
    rw [hcol, Nat.add_assoc] at hrest
    exact hrest

/-! ## Backspaces -/

/-- How many rows an echo of `w` cells scrolls. -/
def scrolledRows (c : Console) (w : ℕ) : ℕ :=
  (c.cursorRow * c.termCols + c.cursorCol + w) / c.termCols - (c.termRows - 1)

/-- The echo is over, and the cell where it starts is still on the screen. -/
theorem Echoed.backedUp (h : Echoed c₀ w c) (hcol : c₀.cursorCol < c₀.termCols)
    (hw : w < (c₀.termRows - 1) * c₀.termCols) :
    BackedUp c₀ w (scrolledRows c₀ w) 0 c ∧
      scrolledRows c₀ w * c₀.termCols ≤ c₀.page.pos c₀.termCols := by
  obtain ⟨s, p, hs, hwindow, hwrote⟩ := h
  have htop : p.offset c₀.termRows = scrolledRows c₀ w := by
    rw [Page.offset, Page.row_eq hwrote.col_lt, hwrote.pos]
    rfl
  have hle := hwrote.offset_le hcol hw
  rw [htop] at hwindow hle
  exact ⟨⟨s, p, hs, hwindow, hwrote.tookBack _⟩, hle⟩

/-- **One backspace.** -/
theorem BackedUp.backspace (h : BackedUp c₀ w top m c) (hm : m < w)
    (htop : top * c₀.termCols ≤ c₀.page.pos c₀.termCols) :
    BackedUp c₀ w top (m + 1) (consoleBackspace c) := by
  obtain ⟨s, p, hs, hwindow, htook⟩ := h
  have hfirst : ¬(s.col = 0 ∧ s.row = 0) := by
    rintro ⟨hcol, hrow⟩
    -- the cursor is behind the cell where the line starts
    have hpos := htook.pos
    have hstart : p.pos c₀.termCols = top * c₀.termCols := by
      rw [Page.pos, ← hwindow.row, ← hwindow.col, hcol, hrow, Nat.zero_add, Nat.add_zero]
    omega
  exact ⟨_, _, consoleBackspace_screens hs hwindow.row_lt hwindow.col_lt hfirst,
    hwindow.erase hfirst, htook.erase hm⟩

/-- A number of them. -/
theorem BackedUp.backspaces (h : BackedUp c₀ w top 0 c)
    (htop : top * c₀.termCols ≤ c₀.page.pos c₀.termCols) (hm : m ≤ w) :
    BackedUp c₀ w top m (consoleBackspace^[m] c) := by
  induction m with
  | zero => exact h
  | succ m ih =>
    rw [Function.iterate_succ_apply']
    exact (ih (Nat.le_of_succ_le hm)).backspace hm htop

/-! ## A line that is typed and erased -/

/-- The line is empty. The cursor of `c'` is where that of `c` was, and so are the cells, but for
the rows that an echo of `w` cells scrolled; the cells of the echo are blank. A row that was
scrolled off the screen does not come back, so this is all that erasing can restore. -/
structure TakenBack (c : Console) (w : ℕ) (s' : Sys) (c' : Console) : Prop where
  line : s'.tty.ttyLine = []
  col : c'.cursorCol = c.cursorCol
  row : c'.cursorRow + scrolledRows c w = c.cursorRow
  erased : ∀ r k, r < c.termRows → k < c.termCols →
    c.page.pos c.termCols ≤ (r + scrolledRows c w) * c.termCols + k →
      (r + scrolledRows c w) * c.termCols + k < c.page.pos c.termCols + w →
        c'.cell r k = c.blank
  others : ∀ r k, r < c.termRows → k < c.termCols →
    (r + scrolledRows c w) * c.termCols + k < c.page.pos c.termCols ∨
      c.page.pos c.termCols + w ≤ (r + scrolledRows c w) * c.termCols + k →
        c'.cell r k = c.page.cells (r + scrolledRows c w) k

theorem playCall_backspaces (n : ℕ) :
    ∀ c : Console, (List.replicate n Call.consoleBackspace).foldl playCall c =
      consoleBackspace^[n] c := by
  induction n with
  | zero => exact fun _ => rfl
  | succ n ih => exact fun c => ih (consoleBackspace c)

/-- **The console sees the line**, and then a backspace for each of its bytes. -/
theorem consoleAfter_typedErased {s : Sys} (hs : Editing s) (hecho : s.tty.ttyEcho = true)
    (hline : s.tty.ttyLine = []) (c : Console) {ds es : List UInt8} (hds : ∀ b ∈ ds, AsciiData b)
    (hfit : ds.length < ttyLineBufferSize) (hes : ∀ b ∈ es, IsErase b)
    (hlen : es.length = ds.length) :
    ((ds ++ es).foldl ttyReceive s).tty.ttyLine = [] ∧
      consoleAfter c s ((ds ++ es).foldl ttyReceive s) =
        consoleBackspace^[ds.length] (ds.foldl consolePutc c) := by
  have hstart : Echoes s [] s.calls := ⟨hs, hecho, hline, rfl⟩
  have htyped := hstart.type ds hds (by rw [List.length_nil, Nat.zero_add]; exact hfit)
  have herased := htyped.eraseAll es hes hlen
  rw [← List.foldl_append] at herased
  refine ⟨herased.line, ?_⟩
  rw [consoleAfter, herased.calls, List.append_assoc, List.drop_left, List.foldl_append, hlen]
  have hputs : (ds.map Call.consolePutc).foldl playCall c = ds.foldl consolePutc c :=
    List.foldl_map
  rw [hputs, playCall_backspaces]

/-- **Backspaces take back an echo** exactly when there are as many as it has cells. -/
theorem BackedUp.cursor_iff (h : BackedUp c₀ w top m c) (hcol : c₀.cursorCol < c₀.termCols) :
    (c.cursorCol = c₀.cursorCol ∧ c.cursorRow + top = c₀.cursorRow) ↔ w = m := by
  obtain ⟨s, p, hs, hwindow, htook⟩ := h
  have hpos := htook.pos
  rw [hs.col, hs.row, hwindow.col, hwindow.row]
  constructor
  · rintro ⟨hpcol, hprow⟩
    have hsame : p.pos c₀.termCols = c₀.page.pos c₀.termCols := by
      rw [Page.pos, hpcol, hprow]
      rfl
    omega
  · rintro rfl
    have hsame := Nat.add_right_cancel hpos
    obtain ⟨hrow, hcol⟩ := (pos_eq_iff (p := c₀.page) hcol htook.col_lt).mp hsame
    exact ⟨hcol, hrow⟩

/-- As many backspaces as the echo has cells: these are blank, and the others as they were. -/
theorem BackedUp.cells (h : BackedUp c₀ w top w c) {r k : ℕ} (hr : r < c₀.termRows)
    (hk : k < c₀.termCols) :
    (c₀.page.pos c₀.termCols ≤ (r + top) * c₀.termCols + k →
      (r + top) * c₀.termCols + k < c₀.page.pos c₀.termCols + w → c.cell r k = c₀.blank) ∧
    ((r + top) * c₀.termCols + k < c₀.page.pos c₀.termCols ∨
      c₀.page.pos c₀.termCols + w ≤ (r + top) * c₀.termCols + k →
        c.cell r k = c₀.page.cells (r + top) k) := by
  obtain ⟨s, p, hs, hwindow, htook⟩ := h
  have hcell : c.cell r k = p.cells (r + top) k := (hs.cell r k hr hk).trans (hwindow.cells r k hr)
  have hpos := Nat.add_right_cancel htook.pos
  rw [hcell]
  exact ⟨fun hge => htook.blank _ k hk (by omega), htook.others _ k hk⟩

/-- **The echo of a line is taken back by erasing it** exactly when every tab in the line took one
cell. An erase key takes back one byte of the line and one cell of the screen, and a tab may take
up to four. -/
theorem echoErase_iff {s : Sys} (hs : Editing s) (hecho : s.tty.ttyEcho = true)
    (hline : s.tty.ttyLine = []) {c : Console} (hc : AtText c) {ds es : List UInt8}
    (hds : ∀ b ∈ ds, AsciiData b) (hfit : ds.length < ttyLineBufferSize)
    (hshort : echoCells c.termCols c.cursorCol ds < (c.termRows - 1) * c.termCols)
    (hes : ∀ b ∈ es, IsErase b) (hlen : es.length = ds.length) :
    TakenBack c (echoCells c.termCols c.cursorCol ds) ((ds ++ es).foldl ttyReceive s)
        (consoleAfter c s ((ds ++ es).foldl ttyReceive s)) ↔
      TabsTakeOneCell c.termCols c.cursorCol ds := by
  obtain ⟨hempty, hafter⟩ := consoleAfter_typedErased hs hecho hline c hds hfit hes hlen
  have hechoed := hc.echoed.puts ds hds
  rw [Nat.zero_add] at hechoed
  obtain ⟨hstart, htop⟩ := hechoed.backedUp hc.col_lt hshort
  have hback := hstart.backspaces htop (length_le_echoCells c.termCols ds c.cursorCol)
  rw [← hafter] at hback
  have hcursor := hback.cursor_iff hc.col_lt
  rw [← echoCells_eq_length_iff c.termCols ds c.cursorCol hc.col_lt]
  refine ⟨fun h => hcursor.mp ⟨h.col, h.row⟩, fun hw => ?_⟩
  obtain ⟨hcol, hrow⟩ := hcursor.mpr hw
  rw [← hw] at hback
  exact ⟨hempty, hcol, hrow, fun r k hr hk => (hback.cells hr hk).1,
    fun r k hr hk => (hback.cells hr hk).2⟩

/-- A tab in the last column in front of a tab stop, and two letters. -/
def alignedTab : List UInt8 := [0x61, 0x62, 0x63, 0x09, 0x64, 0x65]

/-- Both erase bytes. -/
def sixErases : List UInt8 := [0x7F, 0x08, 0x7F, 0x7F, 0x08, 0x08]

theorem alignedTab_takenBack :
    TakenBack (idleConsole vgaText) (echoCells 80 0 alignedTab)
        ((alignedTab ++ sixErases).foldl ttyReceive (ttyStart sysZero))
        (consoleAfter (idleConsole vgaText) (ttyStart sysZero)
          ((alignedTab ++ sixErases).foldl ttyReceive (ttyStart sysZero))) ↔
      TabsTakeOneCell 80 0 alignedTab :=
  echoErase_iff ⟨rfl, rfl⟩ rfl rfl (c := idleConsole vgaText) ⟨rfl, by decide, by decide⟩
    (List.all_iff_forall_prop.mp rfl) (by decide) (by decide) (List.all_iff_forall_prop.mp rfl) rfl

/-- A tab in the first column takes four cells, of which three are left. -/
theorem erasedTab_left :
    AsciiData 0x09 ∧ IsErase 0x7F ∧ AtText (idleConsole vgaText) ∧ Editing (ttyStart sysZero) ∧
      ([0x09, 0x7F].foldl ttyReceive (ttyStart sysZero)).tty.ttyLine = [] ∧
      (idleConsole vgaText).cursorCol = 0 ∧
      (consoleAfter (idleConsole vgaText) (ttyStart sysZero)
        ([0x09, 0x7F].foldl ttyReceive (ttyStart sysZero))).cursorCol = 3 ∧
      ¬TakenBack (idleConsole vgaText) 4 ([0x09, 0x7F].foldl ttyReceive (ttyStart sysZero))
        (consoleAfter (idleConsole vgaText) (ttyStart sysZero)
          ([0x09, 0x7F].foldl ttyReceive (ttyStart sysZero))) := by
  have hleft : (consoleAfter (idleConsole vgaText) (ttyStart sysZero)
      ([0x09, 0x7F].foldl ttyReceive (ttyStart sysZero))).cursorCol = 3 := by decide +kernel
  refine ⟨by decide, by decide, ⟨rfl, by decide, by decide⟩, ⟨rfl, rfl⟩, by decide +kernel, rfl,
    hleft, fun h => ?_⟩
  exact absurd (hleft.symm.trans h.col) (by decide)

end WaluOs
