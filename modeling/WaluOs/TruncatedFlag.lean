import WaluOs.LineEditor
import WaluOs.Prefixes

/-!
# The truncation flag

`tty_line_truncated` is there so that a line that is too long rings the bell once. It is set
where a data byte finds no room, and reset by the newline. The two other ways a line ends, the
interrupt and the end of input, leave it set, and then the next line starts with it.

`LineLog` is kept beside the state: what has happened to the line that is being collected.

A run in which each line that has lost bytes ends with a newline keeps `FlagExact`. Where a line
ends otherwise, the next one begins with the flag of the last, which is wrong at once.
-/

namespace WaluOs

instance (s : Sys) : Decidable (Editing s) :=
  decidable_of_iff (s.tty.ttyCanonical = true ∧ s.tty.ttyEscapeState = 0)
    ⟨fun h => ⟨h.1, h.2⟩, fun h => ⟨h.canonical, h.idle⟩⟩

/-- The byte reaches the line editor. -/
def Edited (s : Sys) (byte : UInt8) : Prop := Editing s ∧ byte ≠ 0x1B

/-- The byte ends the line: the newline, the interrupt, or the end of input after some data. -/
def EndsLine (s : Sys) (byte : UInt8) : Prop :=
  Edited s byte ∧ (byte = 0x0A ∨ byte = 0x03 ∨ (byte = 0x04 ∧ s.tty.ttyLine ≠ []))

/-- A data byte that does not get into the line. -/
def LosesByte (s : Sys) (byte : UInt8) : Prop :=
  Edited s byte ∧ DataByte byte ∧ (ttyReceive s byte).tty.ttyLine = s.tty.ttyLine

instance (s : Sys) (byte : UInt8) : Decidable (Edited s byte) :=
  inferInstanceAs (Decidable (_ ∧ _))

instance (s : Sys) (byte : UInt8) : Decidable (EndsLine s byte) :=
  inferInstanceAs (Decidable (_ ∧ _))

instance (s : Sys) (byte : UInt8) : Decidable (LosesByte s byte) :=
  inferInstanceAs (Decidable (_ ∧ _ ∧ _))

/-- What has happened to the line that is being collected. The TTY keeps only a flag,
`tty_line_truncated`, which decides whether to ring the bell again; the log keeps what the flag is
about, and starts anew with each line. -/
structure LineLog : Type where
  /-- how many of its data bytes were lost -/
  lost : ℕ
  /-- whether one of them was lost with echo off -/
  silent : Bool
  /-- how often it rang the bell -/
  bells : ℕ
  deriving DecidableEq, Repr

/-- A new line: nothing was lost, and the bell has not rung. -/
def LineLog.fresh : LineLog := ⟨0, false, 0⟩

/-- How often receiving the byte rings the bell. -/
def bellsRung (s : Sys) (byte : UInt8) : ℕ :=
  ((ttyReceive s byte).calls.drop s.calls.length).count (.consolePutc 0x07)

/-- An operation in state `s`, for the log. Only the line editor rings the bell for a line. -/
def LineLog.step (g : LineLog) (s : Sys) : TtyOp → LineLog
  | .receive byte =>
    if Edited s byte then
      if EndsLine s byte then
        .fresh
      else
        { lost := if LosesByte s byte then g.lost + 1 else g.lost
          silent := g.silent || (decide (LosesByte s byte) && !s.tty.ttyEcho)
          bells := g.bells + bellsRung s byte }
    else
      g
  | _ => g

/-- A TTY and its log. The log is carried along by each step and decides nothing, so `sys` is what
the TTY would be without it. -/
structure LoggedTty : Type where
  sys : Sys
  log : LineLog

def LoggedTty.step (r : LoggedTty) (op : TtyOp) : LoggedTty :=
  ⟨ttyStep r.sys op, r.log.step r.sys op⟩

/-- A run from `tty_init` on, with the log. Both are folded over the same operations, so that a
statement about the line of a moment can be read off the last state. -/
def loggedRun (s : Sys) (ops : List TtyOp) : LoggedTty :=
  ops.foldl LoggedTty.step ⟨ttyStart s, .fresh⟩

theorem loggedRun_concat (s : Sys) (ops : List TtyOp) (op : TtyOp) :
    loggedRun s (ops ++ [op]) = (loggedRun s ops).step op := List.foldl_concat ..

/-- It is a run of the TTY. -/
theorem loggedRun_sys (s : Sys) (ops : List TtyOp) : (loggedRun s ops).sys = ttyRun s ops :=
  (List.foldl_hom LoggedTty.sys fun _ _ => rfl).symm

/-- The flag is set only for a byte of this line, and a line that has lost bytes has rung the bell
once, unless the echo was off when it lost one. This is the flag as it is meant: nothing of an
earlier line is left in it. -/
structure FlagRight (r : LoggedTty) : Prop where
  flag : r.sys.tty.ttyLineTruncated = true → 0 < r.log.lost
  bell : r.log.silent = false → r.log.bells = min r.log.lost 1

/-- A line that has lost bytes ends with a newline, if it ends here. The newline resets the flag;
the interrupt and the end of input leave it set for the line behind. -/
def EndsRight (r : LoggedTty) : TtyOp → Prop
  | .receive byte => 0 < r.log.lost → EndsLine r.sys byte → byte = 0x0A
  | _ => True

/-- The flag says exactly whether this line has lost a byte. It is what a run keeps as long as
`EndsRight` holds at each of its steps, and more than `FlagRight`: a line that has lost bytes also
has the flag set, so that the next byte that is lost does not ring the bell again. -/
structure FlagExact (r : LoggedTty) : Prop where
  flag : r.sys.tty.ttyLineTruncated = true ↔ 0 < r.log.lost
  fresh : r.log.lost = 0 → r.log.silent = false
  bell : r.log.silent = false → r.log.bells = min r.log.lost 1

theorem FlagExact.right {r : LoggedTty} (h : FlagExact r) : FlagRight r := ⟨h.flag.mp, h.bell⟩

/-- Where line, flag and log stay as they are. -/
theorem FlagExact.same {r r' : LoggedTty} (h : FlagExact r)
    (hflag : r'.sys.tty.ttyLineTruncated = r.sys.tty.ttyLineTruncated) (hlog : r'.log = r.log) :
    FlagExact r' := by
  obtain ⟨hexact, hfresh, hbell⟩ := h
  rw [← hflag, ← hlog] at hexact
  rw [← hlog] at hfresh hbell
  exact ⟨hexact, hfresh, hbell⟩

/-! ## One byte -/

/-- Only data and the newline touch the flag, and only data ring the bell. -/
theorem editLine_other {byte : UInt8} (hdata : ¬DataByte byte) (hnewline : byte ≠ 0x0A)
    (echo : Bool) (l : LineState) :
    (editLine echo l byte).1.truncated = l.truncated ∧
      (editLine echo l byte).2.count (.consolePutc 0x07) = 0 := by
  have hcontrol : ¬(byte = 0x08 ∨ byte = 0x7F) → ttyIsPrintable byte = false := by
    intro herase
    by_contra hprintable
    rw [Bool.not_eq_false, ttyIsPrintable, Bool.or_eq_true, decide_eq_true_iff,
      beq_iff_eq] at hprintable
    exact hdata (hprintable.imp_left fun h => ⟨h, fun hdel => herase (Or.inr hdel)⟩)
  rw [editLine]
  by_cases h3 : byte = 0x03
  · rw [if_pos h3]
    exact ⟨rfl, by cases echo <;> rfl⟩
  by_cases hc : byte = 0x0C
  · rw [if_neg h3, if_pos hc]
    exact ⟨rfl, rfl⟩
  by_cases herase : byte = 0x08 ∨ byte = 0x7F
  · rw [if_neg h3, if_neg hc, if_pos herase]
    split
    · exact ⟨rfl, by cases echo <;> rfl⟩
    · exact ⟨rfl, rfl⟩
  rw [if_neg h3, if_neg hc, if_neg herase, if_neg hnewline, hcontrol herase]
  split
  · exact ⟨rfl, rfl⟩
  · exact ⟨rfl, rfl⟩

/-- A byte that does not reach the editor. -/
theorem lineState_of_not_edited {s : Sys} {byte : UInt8} (h : ¬Edited s byte) :
    (ttyReceive s byte).lineState = s.lineState := by
  cases hcanon : s.tty.ttyCanonical with
  | false => exact (ttyReceive_raw hcanon byte).state
  | true =>
    refine (ttyReceive_filtered hcanon ?_).1
    by_contra hpassed
    have hidle := escapeStep_idle hpassed
    refine h ⟨⟨hcanon, hidle⟩, ?_⟩
    rintro rfl
    rw [hidle] at hpassed
    exact hpassed rfl

theorem Edits.bellsRung {s : Sys} {byte : UInt8} {x : LineState × List Call}
    (h : Edits s (ttyReceive s byte) x) : bellsRung s byte = x.2.count (.consolePutc 0x07) := by
  rw [WaluOs.bellsRung, h.calls, List.drop_left]

theorem Edits.truncated {s s' : Sys} {x : LineState × List Call} (h : Edits s s' x) :
    s'.tty.ttyLineTruncated = x.1.truncated := congrArg LineState.truncated h.state

theorem Edits.line {s s' : Sys} {x : LineState × List Call} (h : Edits s s' x) :
    s'.tty.ttyLine = x.1.line := congrArg LineState.line h.state

/-! ## Runs -/

/-- An interrupt or an end of input leaves the flag as it is. -/
theorem EndsLine.truncated {s : Sys} {byte : UInt8} (h : EndsLine s byte) (hne : byte ≠ 0x0A) :
    (ttyReceive s byte).tty.ttyLineTruncated = s.tty.ttyLineTruncated := by
  have hdata : ¬DataByte byte := by
    rcases h.2 with rfl | rfl | ⟨rfl, -⟩ <;> decide
  rw [(ttyReceive_edits h.1.1 h.1.2).truncated]
  exact (editLine_other hdata hne _ _).1

/-- A byte that ends the line. -/
theorem FlagExact.ends {r : LoggedTty} (h : FlagExact r) {byte : UInt8}
    (hend : EndsLine r.sys byte) (hright : 0 < r.log.lost → byte = 0x0A) :
    FlagExact ⟨ttyReceive r.sys byte, .fresh⟩ := by
  have hflag : (ttyReceive r.sys byte).tty.ttyLineTruncated = false := by
    by_cases hnewline : byte = 0x0A
    · subst hnewline
      rw [(ttyReceive_edits hend.1.1 hend.1.2).truncated]
      rfl
    · rw [hend.truncated hnewline]
      exact Bool.eq_false_iff.mpr fun hset => hnewline (hright (h.flag.mp hset))
  refine ⟨?_, fun _ => rfl, fun _ => rfl⟩
  dsimp only
  rw [hflag]
  exact iff_of_false Bool.false_ne_true (Nat.lt_irrefl 0)

/-- A byte that does not end the line. -/
theorem LineLog.step_edited (g : LineLog) {s : Sys} {byte : UInt8} (hedited : Edited s byte)
    (hend : ¬EndsLine s byte) :
    g.step s (.receive byte) =
      { lost := if LosesByte s byte then g.lost + 1 else g.lost
        silent := g.silent || (decide (LosesByte s byte) && !s.tty.ttyEcho)
        bells := g.bells + WaluOs.bellsRung s byte } := by
  rw [LineLog.step, if_pos hedited, if_neg hend]

/-- One that neither is lost nor touches the flag or the bell. -/
theorem FlagExact.quiet {r : LoggedTty} (h : FlagExact r) {byte : UInt8}
    (hedited : Edited r.sys byte) (hend : ¬EndsLine r.sys byte) (hloses : ¬LosesByte r.sys byte)
    (hflag : (ttyReceive r.sys byte).tty.ttyLineTruncated = r.sys.tty.ttyLineTruncated)
    (hbell : WaluOs.bellsRung r.sys byte = 0) : FlagExact (r.step (.receive byte)) := by
  refine h.same hflag ((r.log.step_edited hedited hend).trans ?_)
  rw [if_neg hloses, decide_eq_false hloses, hbell, Bool.false_and, Bool.or_false]
  rfl

/-- A data byte that is lost: the first one rings the bell. -/
theorem FlagExact.loses {r : LoggedTty} (h : FlagExact r) {byte : UInt8}
    (hedited : Edited r.sys byte) (hend : ¬EndsLine r.sys byte) (hdata : DataByte byte)
    (hfull : ttyLineBufferSize ≤ r.sys.tty.ttyLine.length + 1) :
    FlagExact (r.step (.receive byte)) := by
  have hedit := ttyReceive_full hedited.1 hdata hfull
  have hloses : LosesByte r.sys byte := ⟨hedited, hdata, hedit.line⟩
  have hbell : WaluOs.bellsRung r.sys byte =
      if !r.sys.tty.ttyLineTruncated && r.sys.tty.ttyEcho then 1 else 0 := by
    rw [hedit.bellsRung]
    cases !r.sys.tty.ttyLineTruncated && r.sys.tty.ttyEcho <;> rfl
  have hlog := r.log.step_edited hedited hend
  rw [if_pos hloses, decide_eq_true hloses, Bool.true_and, hbell] at hlog
  have hset : (r.step (.receive byte)).sys.tty.ttyLineTruncated = true := hedit.truncated
  have hlost : (r.step (.receive byte)).log.lost = r.log.lost + 1 := congrArg LineLog.lost hlog
  refine ⟨iff_of_true hset ?_, fun hnone => ?_, fun hheard => ?_⟩
  · rw [hlost]
    exact Nat.succ_pos _
  · rw [hlost] at hnone
    exact absurd hnone (Nat.succ_ne_zero _)
  · have hsilent := congrArg LineLog.silent hlog
    have hbells := congrArg LineLog.bells hlog
    obtain ⟨hbefore, hecho⟩ := Bool.or_eq_false_iff.mp (hsilent.symm.trans hheard)
    have hcount := h.bell hbefore
    refine hbells.trans ?_
    have hloud : r.sys.tty.ttyEcho = true := by simpa using hecho
    rw [hlost, hcount, hloud, Bool.and_true]
    cases hflag : r.sys.tty.ttyLineTruncated with
    | false =>
      have hnone : ¬0 < r.log.lost := fun hpos => by
        rw [h.flag.mpr hpos] at hflag
        cases hflag
      rw [Nat.eq_zero_of_not_pos hnone]
      rfl
    | true =>
      have hpos := h.flag.mp hflag
      have hmin : min r.log.lost 1 = 1 := Nat.min_eq_right hpos
      rw [hmin]
      exact (Nat.min_eq_right (Nat.succ_pos _)).symm

/-- A data byte that joins the line. -/
theorem FlagExact.joins {r : LoggedTty} (h : FlagExact r) {byte : UInt8}
    (hedited : Edited r.sys byte) (hend : ¬EndsLine r.sys byte) (hdata : DataByte byte)
    (hroom : r.sys.tty.ttyLine.length + 1 < ttyLineBufferSize) :
    FlagExact (r.step (.receive byte)) := by
  have hedit := ttyReceive_room hedited.1 hdata hroom
  refine h.quiet hedited hend ?_ hedit.truncated ?_
  · rintro ⟨-, -, hsame⟩
    have hlength := congrArg List.length (hedit.line.symm.trans hsame)
    simp at hlength
  · have hne : byte ≠ 0x07 := hdata.ne (by decide)
    rw [hedit.bellsRung]
    cases r.sys.tty.ttyEcho with
    | false => rfl
    | true =>
      refine List.count_eq_zero_of_not_mem fun hm => hne ?_
      exact (Call.consolePutc.inj (List.mem_singleton.mp hm)).symm

/-- **One operation.** A byte of the line sets the flag if it is lost, the end of a line resets it
if it has to, and the other operations touch neither the line nor the flag. -/
theorem FlagExact.step {r : LoggedTty} (h : FlagExact r) {op : TtyOp} (hop : EndsRight r op) :
    FlagExact (r.step op) := by
  cases op with
  | receive byte =>
    by_cases hedited : Edited r.sys byte
    · by_cases hend : EndsLine r.sys byte
      · have hlog : r.step (.receive byte) = ⟨ttyReceive r.sys byte, .fresh⟩ := by
          rw [LoggedTty.step, LineLog.step, if_pos hedited, if_pos hend]
          rfl
        rw [hlog]
        exact h.ends hend fun hlost => hop hlost hend
      · by_cases hdata : DataByte byte
        · rcases Nat.lt_or_ge (r.sys.tty.ttyLine.length + 1) ttyLineBufferSize with hroom | hfull
          · exact h.joins hedited hend hdata hroom
          · exact h.loses hedited hend hdata hfull
        · -- neither a data byte nor an end of the line
          have hnewline : byte ≠ 0x0A := fun hnl => hend ⟨hedited, Or.inl hnl⟩
          have hedit := ttyReceive_edits hedited.1 hedited.2
          obtain ⟨hflag, hbell⟩ := editLine_other hdata hnewline r.sys.tty.ttyEcho r.sys.lineState
          exact h.quiet hedited hend (fun hl => hdata hl.2.1) (hedit.truncated.trans hflag)
            (hedit.bellsRung.trans hbell)
    · refine h.same (congrArg LineState.truncated (lineState_of_not_edited hedited)) ?_
      rw [LoggedTty.step, LineLog.step, if_neg hedited]
  | popChar =>
    refine h.same ?_ rfl
    show (ttyPopChar r.sys).1.tty.ttyLineTruncated = _
    rw [ttyPopChar]
    dsimp only
    split <;> rfl
  | setCanonical enabled => exact h.same rfl rfl
  | setEcho enabled => exact h.same rfl rfl
  | attachSession sessionId ptyId => exact h.same rfl rfl
  | pty op => exact h.same rfl rfl

/-- Where the flag is right behind the operation, the line ended right. -/
theorem FlagExact.endsRight {r : LoggedTty} (h : FlagExact r) {op : TtyOp}
    (hright : FlagRight (r.step op)) : EndsRight r op := by
  cases op with
  | receive byte =>
    intro hlost hend
    by_contra hnewline
    have hset : (r.step (.receive byte)).sys.tty.ttyLineTruncated = true :=
      (hend.truncated hnewline).trans (h.flag.mpr hlost)
    have hnone := hright.flag hset
    rw [LoggedTty.step, LineLog.step, if_pos hend.1, if_pos hend] at hnone
    exact Nat.lt_irrefl 0 hnone
  | popChar => trivial
  | setCanonical enabled => trivial
  | setEcho enabled => trivial
  | attachSession sessionId ptyId => trivial
  | pty op => trivial

/-- **The flag is right in every state of a run** exactly when no line that has lost bytes is
ended by an interrupt or an end of input. -/
theorem truncated_right_iff (s : Sys) (ops : List TtyOp) :
    (∀ p, p <+: ops → FlagRight (loggedRun s p)) ↔
      ∀ p op, p ++ [op] <+: ops → EndsRight (loggedRun s p) op := by
  refine @Prefixes.forall_iff_of_invariant _ _ (fun p => FlagExact (loggedRun s p)) _ ops ?_
    (fun p op _ h hop => ?_) (fun p h => h.right) (fun p op _ h hright => ?_)
  · exact ⟨iff_of_false Bool.false_ne_true (Nat.lt_irrefl 0), fun _ => rfl, fun _ => rfl⟩
  · rw [loggedRun_concat]
    exact h.step hop
  · rw [loggedRun_concat] at hright
    exact h.endsRight hright

/-- One letter more than the line holds, and an interrupt. The interrupt ends the line without a
newline, so the flag stays for the line that comes next. -/
def longThenInterrupt : List TtyOp :=
  List.replicate 512 (.receive 0x61) ++ [.receive 0x03]

/-- The next line starts with the flag set. -/
theorem longThenInterrupt_flag :
    (loggedRun sysZero longThenInterrupt).log = .fresh ∧
      ¬FlagRight (loggedRun sysZero longThenInterrupt) := by
  have hrun : (loggedRun sysZero longThenInterrupt).sys.tty.ttyLineTruncated = true ∧
      (loggedRun sysZero longThenInterrupt).log = .fresh := by decide +kernel
  refine ⟨hrun.2, fun h => ?_⟩
  have hlost := h.flag hrun.1
  rw [hrun.2] at hlost
  exact Nat.lt_irrefl 0 hlost

end WaluOs
