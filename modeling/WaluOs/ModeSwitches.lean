import WaluOs.LineEditor
import WaluOs.Prefixes

/-!
# Mode switches in the middle of a line

`tty_set_canonical` sets a flag, and leaves the line buffer as it is. What waits there goes on
waiting for a newline or an end of input in canonical mode, and what is received in
noncanonical mode goes past it.

To tell one byte from another of the same value each byte is given the number of its receive
(`Typed`), and a run keeps the numbers beside the TTY (`TypedTty`).

What a run keeps is `TypedTty.Ok`: the numbers ascend in the line buffer and in what was
delivered, and nothing that was delivered is newer than what waits unless it has gone past it.
-/

namespace WaluOs

/-- A byte, with the number of its receive. -/
abbrev Typed : Type := UInt8 × ℕ

/-- ASCII text, the tab and the newline. -/
def PlainText (byte : UInt8) : Prop := (0x20 ≤ byte ∧ byte ≤ 0x7E) ∨ byte = 0x09 ∨ byte = 0x0A

instance (byte : UInt8) : Decidable (PlainText byte) := inferInstanceAs (Decidable (_ ∨ _))

/-- If both are text, `x` was typed before `y`. -/
def Before (x y : Typed) : Prop := PlainText x.1 → PlainText y.1 → x.2 < y.2

instance (x y : Typed) : Decidable (Before x y) := inferInstanceAs (Decidable (_ → _ → _))

/-- Some text waits in the line buffer. -/
def waits (line : List Typed) : Bool := line.any fun y => PlainText y.1

/-- `lineStep`, with the numbers. -/
def typedStep (line : List Typed) (b : Typed) : List Typed × List Typed :=
  if b.1 = 0x03 then
    ([], [b])
  else if b.1 = 0x0C then
    (line, [b])
  else if b.1 = 0x08 ∨ b.1 = 0x7F then
    (line.dropLast, [])
  else if b.1 = 0x0A then
    ([], if line.length + 1 < ttyLineBufferSize then line ++ [b] else line)
  else if b.1 = 0x04 then
    if line = [] then ([], [b]) else ([], line)
  else if ttyIsPrintable b.1 = true ∧ line.length + 1 < ttyLineBufferSize then
    (line ++ [b], [])
  else
    (line, [])

/-- The bytes of both. -/
def bytesOfTyped (x : List Typed × List Typed) : List UInt8 × List UInt8 :=
  (x.1.map Prod.fst, x.2.map Prod.fst)

/-- A branch on both sides. -/
theorem bytesOfTyped_ite {p : Prop} [Decidable p] {x y : List Typed × List Typed}
    {u v : List UInt8 × List UInt8} (hx : p → bytesOfTyped x = u) (hy : ¬p → bytesOfTyped y = v) :
    bytesOfTyped (if p then x else y) = if p then u else v := by
  split
  · exact hx ‹_›
  · exact hy ‹_›

theorem bytesOfTyped_typedStep (line : List Typed) (b : Typed) :
    bytesOfTyped (typedStep line b) = lineStep (line.map Prod.fst) b.1 := by
  obtain ⟨byte, n⟩ := b
  rw [typedStep, lineStep, List.length_map]
  refine bytesOfTyped_ite (fun h => ?_) fun _ => ?_
  · rw [← h]
    rfl
  refine bytesOfTyped_ite (fun h => ?_) fun _ => ?_
  · rw [← h]
    rfl
  refine bytesOfTyped_ite (fun _ => ?_) fun _ => ?_
  · exact congrArg (·, []) List.map_dropLast
  refine bytesOfTyped_ite (fun h => ?_) fun _ => ?_
  · rw [← h]
    refine congrArg ([], ·) ((apply_ite (List.map Prod.fst) ..).trans ?_)
    rw [List.map_append]
    rfl
  refine bytesOfTyped_ite (fun h => ?_) fun _ => ?_
  · rw [← h]
    simp only [List.map_eq_nil_iff]
    exact bytesOfTyped_ite (fun _ => rfl) fun _ => rfl
  exact bytesOfTyped_ite (fun _ => congrArg (·, []) List.map_append) fun _ => rfl

/-! ## Runs -/

/-- A TTY, and where its bytes come from. A byte alone does not say which receive it came with, so
each one is kept with its number; the numbers are then what the order is about. -/
structure TypedTty : Type where
  sys : Sys
  /-- how many bytes were received -/
  received : ℕ
  /-- the line buffer -/
  line : List Typed
  /-- what was handed to the reader -/
  delivered : List Typed
  /-- whether text was received in noncanonical mode with text in the line buffer, where it
  still is -/
  overtaken : Bool

/-- The interrupt, the newline and the end of input empty the line buffer. -/
def EmptiesLine (byte : UInt8) : Prop := byte = 0x03 ∨ byte = 0x0A ∨ byte = 0x04

instance (byte : UInt8) : Decidable (EmptiesLine byte) := inferInstanceAs (Decidable (_ ∨ _))

/-- What an operation does to the line buffer, and what it hands to the reader. -/
def TypedTty.outcome (r : TypedTty) : TtyOp → List Typed × List Typed
  | .receive byte =>
    if r.sys.tty.ttyCanonical then
      if (escapeStep r.sys.tty.ttyEscapeState byte).2 then
        (r.line, [])
      else
        typedStep r.line (byte, r.received)
    else
      (r.line, [(byte, r.received)])
  | _ => (r.line, [])

/-- Whether what waits has been overtaken. -/
def TypedTty.overtakes (r : TypedTty) : TtyOp → Bool
  | .receive byte =>
    if r.sys.tty.ttyCanonical then
      if (escapeStep r.sys.tty.ttyEscapeState byte).2 then
        r.overtaken
      else
        r.overtaken && !decide (EmptiesLine byte)
    else
      r.overtaken || (decide (PlainText byte) && waits r.line)
  | _ => r.overtaken

def TypedTty.step (r : TypedTty) (op : TtyOp) : TypedTty where
  sys := ttyStep r.sys op
  received := match op with
    | .receive _ => r.received + 1
    | _ => r.received
  line := (r.outcome op).1
  delivered := r.delivered ++ (r.outcome op).2
  overtaken := r.overtakes op

/-- A run, with the numbers, from the start that `ttyRun` has. They are carried along and decide
nothing, so `sys` is the TTY of the same run without them. -/
def typedRun (s : Sys) (ops : List TtyOp) : TypedTty :=
  ops.foldl TypedTty.step ⟨ttyStart s, 0, [], [], false⟩

theorem typedRun_concat (s : Sys) (ops : List TtyOp) (op : TtyOp) :
    typedRun s (ops ++ [op]) = (typedRun s ops).step op := List.foldl_concat ..

/-- It is a run of the TTY. -/
theorem typedRun_sys (s : Sys) (ops : List TtyOp) : (typedRun s ops).sys = ttyRun s ops :=
  (List.foldl_hom TypedTty.sys fun _ _ => rfl).symm

/-! ## One byte -/

/-- A byte in noncanonical mode goes straight to the reader. -/
theorem ttyReceive_raw_received {s : Sys} (h : ReaderOk s) (hraw : s.tty.ttyCanonical = false)
    (byte : UInt8) : Received s (ttyReceive s byte) s.discipline [byte] := by
  have hmode : ¬(s.tty.ttyCanonical = true) := by
    rw [hraw]
    exact Bool.false_ne_true
  have hcount : ReaderOk { s with tty.ttyRxCount := s.tty.ttyRxCount + 1 } := ⟨h.ptys, h.ring⟩
  rw [ttyReceive, if_neg hmode, ttyHandleNoncanonical]
  exact ((ttyEnqueueRead_received hcount byte).emit_if _ _).congr_left rfl rfl rfl rfl rfl

/-- The other operations leave the discipline alone. -/
theorem ttyStep_discipline (s : Sys) {op : TtyOp} (hop : ∀ byte, op ≠ .receive byte) :
    (ttyStep s op).discipline = s.discipline := by
  cases op with
  | receive byte => exact absurd rfl (hop byte)
  | popChar =>
    show (ttyPopChar s).1.discipline = _
    rw [ttyPopChar]
    dsimp only
    split <;> rfl
  | setCanonical enabled => rfl
  | setEcho enabled => rfl
  | attachSession sessionId ptyId => rfl
  | pty op => rfl

/-- The numbers belong to the bytes of the line buffer. -/
def TypedTty.Tracks (r : TypedTty) : Prop := r.line.map Prod.fst = r.sys.tty.ttyLine

/-- **One byte**: the line buffer, and what is handed to the reader. -/
theorem TypedTty.Tracks.receive {r : TypedTty} (h : r.Tracks) (hok : ReaderOk r.sys)
    (byte : UInt8) :
    (r.step (.receive byte)).Tracks ∧
      Pushes r.sys (ttyReceive r.sys byte) ((r.outcome (.receive byte)).2.map Prod.fst) := by
  have hline : r.sys.discipline.line = r.line.map Prod.fst := h.symm
  cases hcanon : r.sys.tty.ttyCanonical with
  | false =>
    have hmode : ¬(r.sys.tty.ttyCanonical = true) := by
      rw [hcanon]
      exact Bool.false_ne_true
    have hreceived := ttyReceive_raw_received hok hcanon byte
    have hkept := congrArg Discipline.line hreceived.discipline
    rw [Tracks, step, outcome, if_neg hmode]
    exact ⟨h.trans hkept.symm, hreceived.pushes⟩
  | true =>
    have hreceived := ttyReceive_received hok hcanon byte
    have hkept := congrArg Discipline.line hreceived.discipline
    rw [Discipline.step] at hreceived hkept
    rw [Tracks, step, outcome, if_pos hcanon]
    dsimp only at hreceived hkept ⊢
    have hescape : r.sys.discipline.escape = r.sys.tty.ttyEscapeState := rfl
    rw [hescape] at hreceived hkept
    by_cases hfilter : (escapeStep r.sys.tty.ttyEscapeState byte).2 = true
    · rw [if_pos hfilter] at hreceived hkept ⊢
      exact ⟨h.trans hkept.symm, hreceived.pushes⟩
    · have hbytes := bytesOfTyped_typedStep r.line (byte, r.received)
      rw [if_neg hfilter, hline, ← hbytes] at hreceived hkept
      rw [if_neg hfilter]
      exact ⟨hkept.symm, hreceived.pushes⟩

/-- The other operations concern the system only. -/
theorem TypedTty.step_other (r : TypedTty) {op : TtyOp} (hop : ∀ byte, op ≠ .receive byte) :
    r.step op = { r with sys := ttyStep r.sys op } := by
  cases op with
  | receive byte => exact absurd rfl (hop byte)
  | _ =>
    rw [step, outcome, overtakes, List.append_nil]
    all_goals exact fun _ => TtyOp.noConfusion

/-- **One operation.** -/
theorem TypedTty.Tracks.step {r : TypedTty} (h : r.Tracks) (hok : ReaderOk r.sys) (op : TtyOp) :
    (r.step op).Tracks := by
  by_cases hop : ∃ byte, op = .receive byte
  · obtain ⟨byte, rfl⟩ := hop
    exact (h.receive hok byte).1
  · have hkept := ttyStep_discipline r.sys (not_exists.mp hop)
    rw [r.step_other (not_exists.mp hop)]
    exact h.trans (congrArg Discipline.line hkept).symm

theorem typedRun_ok (s : Sys) (ops : List TtyOp) : ReaderOk (typedRun s ops).sys :=
  typedRun_sys s ops ▸ (ttyRun_ok s ops).reader

/-- **The numbers are those of the bytes** at any time. -/
theorem typedRun_tracks (s : Sys) (ops : List TtyOp) : (typedRun s ops).Tracks := by
  induction ops using List.reverseRecOn with
  | nil => rfl
  | append_singleton ops op ih =>
    rw [typedRun_concat]
    exact ih.step (typedRun_ok s ops) op

/-! ## The order -/

/-- The operation hands the line over. -/
def Flushes (s : Sys) : TtyOp → Prop
  | .receive byte => s.tty.ttyCanonical = true ∧ (byte = 0x0A ∨ byte = 0x04)
  | _ => False

/-- What is handed over has not been overtaken. The text of the line buffer is handed over as a
whole, and if bytes have gone past it in noncanonical mode since it was typed, that is the moment
when the order breaks. -/
def HandsOverInOrder (r : TypedTty) (op : TtyOp) : Prop := Flushes r.sys op → r.overtaken = false

/-- No erase byte and no ESC. An erase byte takes text back and an ESC begins a sequence that is
skipped, so that what is delivered would not be what was typed; the order is asked of the rest. -/
def NoEraseNoEscape : TtyOp → Prop
  | .receive byte => byte ≠ 0x08 ∧ byte ≠ 0x7F ∧ byte ≠ 0x1B
  | _ => True

/-- What holds of the numbers after `n` receives, as long as no line was handed over that had been
overtaken. The last two fields are about the flag: it tells exactly whether something that was
delivered is newer than something that still waits. -/
structure Ordered (n : ℕ) (pending out : List Typed) (overtaken : Bool) : Prop where
  /-- the numbers are those of receives -/
  old : ∀ x ∈ out ++ pending, x.2 < n
  /-- text waits in the order it was typed -/
  line : pending.Pairwise Before
  /-- and was delivered in the order it was typed -/
  delivered : out.Pairwise Before
  /-- nothing that was delivered is newer than what waits -/
  passed : overtaken = false → ∀ x ∈ out, ∀ y ∈ pending, Before x y
  /-- unless that has been overtaken -/
  overtook : overtaken = true → ∃ x ∈ out, ∃ y ∈ pending, ¬Before x y

/-- The newest byte comes last. -/
theorem pairwise_before_concat {n : ℕ} {line : List Typed} (h : line.Pairwise Before)
    (hold : ∀ x ∈ line, x.2 < n) (byte : UInt8) : (line ++ [(byte, n)]).Pairwise Before := by
  refine List.pairwise_append.mpr ⟨h, List.pairwise_singleton .., fun x hx y hy => ?_⟩
  rw [List.mem_singleton.mp hy]
  exact fun _ _ => hold x hx

namespace Ordered

variable {n : ℕ} {pending out : List Typed} {overtaken : Bool}

/-- A byte that leaves no trace. -/
theorem skip (h : Ordered n pending out overtaken) :
    Ordered (n + 1) pending out overtaken :=
  ⟨fun x hx => Nat.lt_succ_of_lt (h.old x hx), h.line, h.delivered, h.passed, h.overtook⟩

/-- A byte joins the line. -/
theorem join (h : Ordered n pending out overtaken) (byte : UInt8) :
    Ordered (n + 1) (pending ++ [(byte, n)]) out overtaken := by
  have hline := pairwise_before_concat h.line (fun x hx => h.old x (List.mem_append_right _ hx)) byte
  refine ⟨?_, hline, h.delivered, ?_, ?_⟩
  · intro x hx
    rw [← List.append_assoc] at hx
    rcases List.mem_append.mp hx with hx | hx
    · exact Nat.lt_succ_of_lt (h.old x hx)
    · rw [List.mem_singleton.mp hx]
      exact Nat.lt_succ_self n
  · intro hno x hx y hy
    rcases List.mem_append.mp hy with hy | hy
    · exact h.passed hno x hx y hy
    · rw [List.mem_singleton.mp hy]
      exact fun _ _ => h.old x (List.mem_append_left _ hx)
  · intro hyes
    obtain ⟨x, hx, y, hy, hbehind⟩ := h.overtook hyes
    exact ⟨x, hx, y, List.mem_append_left _ hy, hbehind⟩

/-- A byte goes straight to the reader: if it is text, past the text that waits. -/
theorem give (h : Ordered n pending out overtaken) (byte : UInt8) :
    Ordered (n + 1) pending (out ++ [(byte, n)])
      (overtaken || (decide (PlainText byte) && waits pending)) := by
  have hlast : ∀ x ∈ out ++ pending, x.2 < n := h.old
  have hdelivered := pairwise_before_concat h.delivered
    (fun x hx => hlast x (List.mem_append_left _ hx)) byte
  refine ⟨?_, h.line, hdelivered, ?_, ?_⟩
  · intro x hx
    rcases List.mem_append.mp hx with hx | hx
    · rcases List.mem_append.mp hx with hx | hx
      · exact Nat.lt_succ_of_lt (hlast x (List.mem_append_left _ hx))
      · rw [List.mem_singleton.mp hx]
        exact Nat.lt_succ_self n
    · exact Nat.lt_succ_of_lt (hlast x (List.mem_append_right _ hx))
  · intro hno x hx y hy
    obtain ⟨hbefore, hnone⟩ := Bool.or_eq_false_iff.mp hno
    rcases List.mem_append.mp hx with hx | hx
    · exact h.passed hbefore x hx y hy
    · -- it is no text, or no text waits
      rw [List.mem_singleton.mp hx]
      intro hb hy'
      rw [decide_eq_true hb, Bool.true_and] at hnone
      exact absurd (decide_eq_true hy') (List.any_eq_false.mp hnone y hy)
  · intro hyes
    rcases Bool.or_eq_true_iff.mp hyes with hyes | hyes
    · obtain ⟨x, hx, hbehind⟩ := h.overtook hyes
      exact ⟨x, List.mem_append_left _ hx, hbehind⟩
    · obtain ⟨hb, hsome⟩ := Bool.and_eq_true_iff.mp hyes
      obtain ⟨y, hy, hy'⟩ := List.any_eq_true.mp hsome
      refine ⟨_, List.mem_append_right _ (List.mem_singleton_self _), y, hy, fun hbefore => ?_⟩
      exact Nat.lt_asymm (hlast y (List.mem_append_right _ hy))
        (hbefore (of_decide_eq_true hb) (of_decide_eq_true hy'))

/-- A byte that is no text. -/
theorem control (h : Ordered n pending out overtaken) {byte : UInt8} (hb : ¬PlainText byte) :
    Ordered (n + 1) pending (out ++ [(byte, n)]) overtaken := by
  have hgive := h.give byte
  rwa [decide_eq_false hb, Bool.false_and, Bool.or_false] at hgive

/-- The line is handed over. -/
theorem flush (h : Ordered n pending out false) : Ordered n [] (out ++ pending) false := by
  refine ⟨?_, List.Pairwise.nil, ?_, fun _ _ _ y hy => absurd hy List.not_mem_nil,
    fun hyes => Bool.noConfusion hyes⟩
  · rw [List.append_nil]
    exact h.old
  · exact List.pairwise_append.mpr ⟨h.delivered, h.line, h.passed rfl⟩

/-- The line is thrown away. -/
theorem drop (h : Ordered n pending out overtaken) : Ordered n [] out false := by
  refine ⟨fun x hx => ?_, List.Pairwise.nil, h.delivered,
    fun _ _ _ y hy => absurd hy List.not_mem_nil, fun hyes => Bool.noConfusion hyes⟩
  rw [List.append_nil] at hx
  exact h.old x (List.mem_append_left _ hx)

end Ordered

/-- A line that has not been overtaken, or nothing is handed over. -/
theorem Ordered.typedStep {n : ℕ} {pending out : List Typed} {overtaken : Bool}
    (h : Ordered n pending out overtaken) {byte : UInt8} (herase : ¬(byte = 0x08 ∨ byte = 0x7F))
    (hflush : byte = 0x0A ∨ byte = 0x04 → overtaken = false) :
    Ordered (n + 1) (WaluOs.typedStep pending (byte, n)).1
      (out ++ (WaluOs.typedStep pending (byte, n)).2)
      (overtaken && !decide (EmptiesLine byte)) := by
  have hends : EmptiesLine byte → (overtaken && !decide (EmptiesLine byte)) = false := by
    intro hb
    rw [decide_eq_true hb, Bool.not_true, Bool.and_false]
  have hstays : ¬EmptiesLine byte → (overtaken && !decide (EmptiesLine byte)) = overtaken := by
    intro hb
    rw [decide_eq_false hb, Bool.not_false, Bool.and_true]
  rw [WaluOs.typedStep]
  dsimp only
  split
  · rename_i hb
    rw [hends (.inl hb)]
    exact h.drop.control (by rw [hb]; decide)
  rename_i h3
  split
  · rename_i hb
    rw [hstays (by rw [hb]; decide)]
    exact h.control (by rw [hb]; decide)
  split
  · rename_i hb
    rw [hends (.inr (.inl hb))]
    have hinOrder := hflush (.inl hb) ▸ h
    split
    · exact (hinOrder.join byte).flush
    · exact hinOrder.skip.flush
  rename_i hnewline
  split
  · rename_i hb
    rw [hends (.inr (.inr hb))]
    have hinOrder := hflush (.inr hb) ▸ h
    split
    · rename_i hnil
      subst hnil
      exact hinOrder.control (by rw [hb]; decide)
    · exact hinOrder.skip.flush
  rename_i hend
  rw [hstays (by rintro (hb | hb | hb) <;> contradiction)]
  split
  · rw [List.append_nil]
    exact h.join byte
  · rw [List.append_nil]
    exact h.skip

/-- What a run keeps, as long as no line was handed over that had been overtaken. -/
structure TypedTty.Ok (r : TypedTty) : Prop where
  /-- the numbers are those of the bytes in the line buffer -/
  tracks : r.Tracks
  /-- no escape sequence is being skipped -/
  idle : r.sys.tty.ttyEscapeState = 0
  /-- the order -/
  ordered : Ordered r.received r.line r.delivered r.overtaken

/-- The filter is idle behind a byte that starts no sequence. -/
theorem ttyReceive_idle {s : Sys} (hidle : s.tty.ttyEscapeState = 0) {byte : UInt8}
    (hb : byte ≠ 0x1B) : (ttyReceive s byte).tty.ttyEscapeState = 0 := by
  cases hcanon : s.tty.ttyCanonical with
  | true => exact (ttyReceive_edits ⟨hcanon, hidle⟩ hb).escape.trans hidle
  | false => exact (ttyReceive_raw hcanon byte).escape.trans hidle

/-- **One byte.** -/
theorem TypedTty.Ok.receive {r : TypedTty} (h : r.Ok) (hok : ReaderOk r.sys) {byte : UInt8}
    (hplain : NoEraseNoEscape (.receive byte)) (hinOrder : HandsOverInOrder r (.receive byte)) :
    (r.step (.receive byte)).Ok := by
  refine ⟨(h.tracks.receive hok byte).1, ttyReceive_idle h.idle hplain.2.2, ?_⟩
  show Ordered (r.received + 1) (r.outcome (.receive byte)).1
    (r.delivered ++ (r.outcome (.receive byte)).2) (r.overtakes (.receive byte))
  rw [outcome, overtakes]
  cases hcanon : r.sys.tty.ttyCanonical with
  | true =>
    have hpasses : ¬(escapeStep r.sys.tty.ttyEscapeState byte).2 = true := by
      rw [h.idle, escapeStep, if_pos rfl, if_neg hplain.2.2]
      exact Bool.false_ne_true
    rw [if_pos rfl, if_neg hpasses, if_pos rfl, if_neg hpasses]
    exact h.ordered.typedStep (not_or.mpr ⟨hplain.1, hplain.2.1⟩) fun hb => hinOrder ⟨hcanon, hb⟩
  | false =>
    rw [if_neg Bool.false_ne_true, if_neg Bool.false_ne_true]
    exact h.ordered.give byte

/-- **One operation.** -/
theorem TypedTty.Ok.step {r : TypedTty} (h : r.Ok) (hok : ReaderOk r.sys) {op : TtyOp}
    (hplain : NoEraseNoEscape op) (hinOrder : HandsOverInOrder r op) : (r.step op).Ok := by
  by_cases hop : ∃ byte, op = .receive byte
  · obtain ⟨byte, rfl⟩ := hop
    exact h.receive hok hplain hinOrder
  · have htracks := h.tracks.step hok op
    have hkept := ttyStep_discipline r.sys (not_exists.mp hop)
    rw [r.step_other (not_exists.mp hop)] at htracks ⊢
    exact ⟨htracks, (congrArg Discipline.escape hkept).trans h.idle, h.ordered⟩

/-- A line that has been overtaken is handed over out of order. -/
theorem Ordered.not_flush {n : ℕ} {pending out : List Typed}
    (h : Ordered n pending out true) (rest : List Typed) :
    ¬(out ++ (pending ++ rest)).Pairwise Before := by
  intro hpairwise
  obtain ⟨x, hx, y, hy, hbehind⟩ := h.overtook rfl
  exact hbehind ((List.pairwise_append.mp hpairwise).2.2 x hx y (List.mem_append_left _ hy))

/-- What a flush hands over starts with the line. -/
theorem typedStep_flush {pending : List Typed} {b : Typed} (hline : pending ≠ [])
    (hb : b.1 = 0x0A ∨ b.1 = 0x04) : ∃ rest, (typedStep pending b).2 = pending ++ rest := by
  rw [typedStep]
  rcases hb with hb | hb
  · rw [if_neg (by rw [hb]; decide), if_neg (by rw [hb]; decide), if_neg (by rw [hb]; decide),
      if_pos hb]
    dsimp only
    split
    · exact ⟨[b], rfl⟩
    · exact ⟨[], (List.append_nil _).symm⟩
  · rw [if_neg (by rw [hb]; decide), if_neg (by rw [hb]; decide), if_neg (by rw [hb]; decide),
      if_neg (by rw [hb]; decide), if_pos hb, if_neg hline]
    exact ⟨[], (List.append_nil _).symm⟩

/-- Where the order is kept, nothing that had been overtaken was handed over. -/
theorem TypedTty.Ok.handsOverInOrder {r : TypedTty} (h : r.Ok) {op : TtyOp}
    (hright : (r.step op).delivered.Pairwise Before) : HandsOverInOrder r op := by
  by_cases hop : ∃ byte, op = .receive byte
  · obtain ⟨byte, rfl⟩ := hop
    rintro ⟨hcanon, hb⟩
    by_contra hovertaken
    have hordered := h.ordered
    rw [Bool.not_eq_false] at hovertaken
    rw [hovertaken] at hordered
    have hline : r.line ≠ [] := by
      obtain ⟨-, -, y, hy, -⟩ := hordered.overtook rfl
      exact List.ne_nil_of_mem hy
    have hpasses : ¬(escapeStep r.sys.tty.ttyEscapeState byte).2 = true := by
      rw [h.idle, escapeStep, if_pos rfl, if_neg (by rcases hb with rfl | rfl <;> decide)]
      exact Bool.false_ne_true
    obtain ⟨rest, hrest⟩ := typedStep_flush (b := (byte, r.received)) hline hb
    have hgiven : (r.step (.receive byte)).delivered = r.delivered ++ (r.line ++ rest) := by
      show r.delivered ++ (r.outcome (.receive byte)).2 = _
      rw [outcome, if_pos hcanon, if_neg hpasses, hrest]
    rw [hgiven] at hright
    exact hordered.not_flush rest hright
  · intro hflush
    cases op with
    | receive byte => exact absurd ⟨byte, rfl⟩ hop
    | _ => exact hflush.elim

/-! ## Runs -/

/-- **Text is delivered in the order it was typed.** The first part says what is delivered, so
that the second one is not about an empty list: whatever a byte hands over stands at the end of
the reader's queue. -/
structure DeliversInOrder (s : Sys) (ops : List TtyOp) : Prop where
  /-- what is handed over joins the reader's queue -/
  queue : ∀ p byte, p ++ [.receive byte] <+: ops →
    (ttyRun s (p ++ [.receive byte])).readerQueue = (ttyRun s p).readerQueue ++
      ((typedRun s p).outcome (.receive byte)).2.map Prod.fst
  /-- in the order of the receives -/
  inOrder : ∀ p, p <+: ops → (typedRun s p).delivered.Pairwise Before

/-- The reader's queue has room for what a byte hands over. A full queue drops bytes and counts
them, and then less joins it than was handed over. -/
def HasRoom (s : Sys) (ops : List TtyOp) : Prop :=
  ∀ p byte, p ++ [.receive byte] <+: ops →
    ((typedRun s p).outcome (.receive byte)).2.length ≤ (ttyRun s p).readerRoom

/-- **Text is delivered in order**, exactly when no line is handed over that has been overtaken.
Text that goes on waiting in the line buffer is no harm, however much is delivered meanwhile. -/
theorem deliversInOrder_iff (s : Sys) (ops : List TtyOp) (hplain : ∀ op ∈ ops, NoEraseNoEscape op)
    (hroom : HasRoom s ops) :
    DeliversInOrder s ops ↔ ∀ p op, p ++ [op] <+: ops → HandsOverInOrder (typedRun s p) op := by
  have horder : (∀ p, p <+: ops → (typedRun s p).delivered.Pairwise Before) ↔
      ∀ p op, p ++ [op] <+: ops → HandsOverInOrder (typedRun s p) op := by
    refine @Prefixes.forall_iff_of_invariant _ _ (fun p => (typedRun s p).Ok) _ ops ?_
      (fun p op hp h hop => ?_) (fun p h => h.ordered.delivered) (fun p op _ h hright => ?_)
    · exact ⟨rfl, rfl, fun _ hx => absurd hx List.not_mem_nil, .nil, .nil,
        fun _ _ hx => absurd hx List.not_mem_nil, fun h => Bool.noConfusion h⟩
    · have hmem := hp.subset (List.mem_append_right p (List.mem_singleton_self op))
      rw [typedRun_concat]
      exact h.step (typedRun_ok s p) (hplain op hmem) hop
    · rw [typedRun_concat] at hright
      exact h.handsOverInOrder hright
  refine ⟨fun h => horder.mp h.inOrder, fun h => ⟨fun p byte hp => ?_, horder.mpr h⟩⟩
  have hpushes := ((typedRun_tracks s p).receive (typedRun_ok s p) byte).2
  have hfits := hroom p byte hp
  rw [← List.length_map Prod.fst] at hfits
  rw [typedRun_sys] at hpushes
  have hqueue := hpushes.queue
  rw [List.take_of_length_le hfits] at hqueue
  rw [ttyRun, List.foldl_concat]
  exact hqueue

/-- A letter waits, and the newline comes in noncanonical mode. -/
def letterThenRaw : List TtyOp := [.receive 0x61, .setCanonical false, .receive 0x0A]

theorem deliversInOrder_letterThenRaw :
    DeliversInOrder sysZero letterThenRaw ↔
      ∀ p op, p ++ [op] <+: letterThenRaw → HandsOverInOrder (typedRun sysZero p) op := by
  refine deliversInOrder_iff sysZero letterThenRaw (by simp [letterThenRaw, NoEraseNoEscape]) ?_
  rintro p byte ⟨rest, hp⟩
  rcases p with _ | ⟨op, _ | ⟨op', _ | ⟨op'', p⟩⟩⟩
  · obtain ⟨rfl, -⟩ : byte = 0x61 ∧ _ := by simpa [letterThenRaw] using hp
    decide
  · simp [letterThenRaw] at hp
  · obtain ⟨rfl, rfl, rfl, -⟩ :
        op = .receive 0x61 ∧ op' = .setCanonical false ∧ byte = 0x0A ∧ _ := by
      simpa [letterThenRaw] using hp
    decide
  · simp [letterThenRaw] at hp

/-- A letter, a second one in noncanonical mode, and a newline in canonical mode. The second
letter reaches the reader while the first one is still in the line buffer. -/
def switchInLine : List TtyOp :=
  [.receive 0x61, .setCanonical false, .receive 0x62, .setCanonical true, .receive 0x0A]

/-- The second letter is delivered before the first one. -/
theorem switchInLine_reorders :
    (ttyRun sysZero switchInLine).readerQueue = [0x62, 0x61, 0x0A] ∧
      ¬DeliversInOrder sysZero switchInLine := by
  refine ⟨by decide +kernel, fun h => ?_⟩
  have hwhole := h.inOrder switchInLine (List.prefix_refl _)
  exact absurd hwhole (by decide +kernel)

end WaluOs
