import Mathlib.Data.List.DropRight
import WaluOs.Mealy
import WaluOs.ShellPolls

/-!
# What the shell makes of its input

Whatever brings a byte to the shell, a PTY or the TTY, and in whatever chunks and polls: the
shell is a machine that reads bytes and makes calls (`shellStep`), and `ShellRun` is any
number of polls with anything between them. The log of a run has each byte that a poll
reads, with the variables of the shell that it finds.

`sinceBreak` is what has been typed of a line, without a limit. The shell keeps the first 127
bytes of it, and executes these (`shellRun_executed`).
-/

namespace WaluOs

/-! ## The shell as a machine -/

/-- The calls that the loops of `shell_poll` make themselves. What a command prints is not among
them. -/
inductive ShellCall : Type where
  /-- `execute_command`, with the bytes of its C string -/
  | execute : List UInt8 → ShellCall
  /-- `shell_prompt` -/
  | prompt : ShellCall
  /-- `console_clear` -/
  | clear : ShellCall
  /-- `console_write` of `shell_line` -/
  | redraw : List UInt8 → ShellCall
  deriving DecidableEq, Repr

/-- What a byte does to the variables of the shell, and the calls it makes. The source has this
twice, in the loop over a PTY and in the loop over the TTY; nothing else of the system has an
influence on it. -/
def shellStep (sh : Shell) (c : UInt8) : Shell × List ShellCall :=
  if c = 0x03 then (⟨sh.shellLine, 0⟩, [.prompt])
  else if c = 0x0C then
    (sh, [.clear, .prompt] ++ if sh.shellLen > 0 then [.redraw (cString sh.shellLine)] else [])
  else if c = 0x0A then
    (⟨Function.update sh.shellLine sh.shellLen 0, 0⟩,
      [.execute (cString (Function.update sh.shellLine sh.shellLen 0)), .prompt])
  else if c = 0x04 then (sh, [])
  else if (c < 0x20 ∨ c = 0x7F) ∧ c ≠ 0x09 then (sh, [])
  else if sh.shellLen + 1 < shellLineMax then
    (⟨Function.update sh.shellLine sh.shellLen c, sh.shellLen + 1⟩, [])
  else (sh, [])

/-- The commands among the calls. -/
def commandsOf (calls : List ShellCall) : List (List UInt8) :=
  calls.filterMap fun
    | .execute line => some line
    | _ => none

theorem commandsOf_append (xs ys : List ShellCall) :
    commandsOf (xs ++ ys) = commandsOf xs ++ commandsOf ys := List.filterMap_append

theorem drainActivePty_frame (s : Sys) : Frame s (drainActivePty s) := by
  rw [drainActivePty]
  split_ifs
  · exact .refl s
  · exact ⟨rfl, rfl, rfl, rfl⟩

theorem cmdSelftest_frame (s : Sys) : Frame s (cmdSelftest s) := by
  obtain ⟨cs, hcs, heq⟩ := cmdSelftest_eq s
  rw [heq]
  split_ifs
  · exact (Frame.refl s).emit hcs
  · have hinject : Frame s (ttyTestInjectBytes { s with ptys := selftestPtys s.ptys }
        (List.replicate 899 0x78 ++ [0x0A])) :=
      List.foldlRecOn (motive := Frame s) (List.replicate 899 0x78 ++ [0x0A]) ttyReceive
        ⟨rfl, rfl, rfl, rfl⟩ fun u h b _ => h.trans (ttyReceive_frame u b)
    exact (hinject.trans (drainActivePty_frame _)).emit hcs

/-- **A command** leaves the shell alone, and executes no other command. -/
theorem executeCommand_frame (s : Sys) (line : List UInt8) : Frame s (executeCommand s line) := by
  by_cases hself : IsSelftest line
  · have hpush : PrintsOnly s ({ s with rustHistoryCount := s.rustHistoryCount + 1 }.emit
        [.rustHistoryPush (text "selftest")]) :=
      PrintsOnly.emit ⟨s.rustHistoryCount + 1, [], rfl, by rw [List.append_nil]⟩ rfl
    rw [executeCommand_selftest s hself]
    exact hpush.frame.trans (cmdSelftest_frame _)
  · exact (executeCommand_prints s hself).frame

/-- The body of the loops: the variables, and the commands. What else the body does, calls and
counters, never comes back into these. -/
theorem shellByte_step (s : Sys) (c : UInt8) :
    (shellByte s c).shell = (shellStep s.shell c).1 ∧
      executed (shellByte s c).calls = executed s.calls ++ commandsOf (shellStep s.shell c).2 := by
  rw [shellByte, shellStep]
  split
  · exact ⟨rfl, by simp [shellPrompt, Sys.emit, executed, commandsOf, say]⟩
  split
  · dsimp only
    have hlen : (shellPrompt (s.emit [.consoleClear])).shell = s.shell := rfl
    rw [hlen]
    split_ifs
    · exact ⟨rfl, by simp [shellPrompt, Sys.emit, executed, commandsOf, say]⟩
    · exact ⟨rfl, by simp [shellPrompt, Sys.emit, executed, commandsOf, say]⟩
  split
  · dsimp only
    set line := cString (Function.update s.shell.shellLine s.shell.shellLen 0)
    have hframe := executeCommand_frame (Sys.emit { s with
      shell.shellLine := Function.update s.shell.shellLine s.shell.shellLen 0 }
        [.executeCommand line]) line
    refine ⟨?_, ?_⟩
    · rw [shellPrompt, Sys.emit, hframe.shell]
      rfl
    · rw [shellPrompt, Sys.emit, executed_append, hframe.executed, Sys.emit, executed_append]
      simp [executed, commandsOf, say]
  split
  · exact ⟨rfl, by simp [commandsOf]⟩
  split
  · exact ⟨rfl, by simp [commandsOf]⟩
  split
  · exact ⟨rfl, by simp [commandsOf]⟩
  · exact ⟨rfl, by simp [commandsOf]⟩

/-! ## Polls -/

/-- A byte that a loop has read, and the variables of the shell before it: enough to know what it
did. -/
abbrev Entry : Type := Shell × UInt8

/-- The bytes of a log, in the order in which they were read. -/
def bytesOf (log : List Entry) : List UInt8 := log.map Prod.snd

/-- The calls of a log. They follow from its entries, since each entry says in which state its
byte was read. -/
def callsOf (log : List Entry) : List ShellCall := log.flatMap fun e => (shellStep e.1 e.2).2

/-- The log of a chunk. -/
def chunkLog (s : Sys) : List UInt8 → List Entry
  | [] => []
  | c :: cs => (s.shell, c) :: chunkLog (shellByte s c) cs

/-- The log of the PTY loop. -/
def ptyLoopLog (ptyId : ℤ) : ℕ → Sys → List Entry
  | 0, _ => []
  | fuel + 1, s =>
    let r := ptySlaveRead s.ptys ptyId true 128
    let s := { s with ptys := r.1 }
    if r.2.length = 0 then [] else chunkLog s r.2 ++ ptyLoopLog ptyId fuel (r.2.foldl shellByte s)

/-- The log of the TTY loop. -/
def ttyLoopLog : ℕ → Sys → List Entry
  | 0, _ => []
  | fuel + 1, s =>
    match ttyPopChar s with
    | (_, none) => []
    | (s, some c) => (s.shell, c) :: ttyLoopLog fuel (shellByte s c)

/-- The log of a poll, by whichever way it reads. -/
def pollLog (s : Sys) : List Entry :=
  let s := ttyPollInput s
  let ptyId := sessionActivePty s.sessions
  if 0 ≤ ptyId then ptyLoopLog ptyId shellFuel s else ttyLoopLog shellFuel s

/-- `s'` comes after `s`, and `log` is what the shell has read between. It ties the log to the
machine on one side and to what was really executed on the other. -/
structure Logs (s : Sys) (log : List Entry) (s' : Sys) : Prop where
  /-- the machine has read these bytes and made these calls -/
  run : Mealy.run shellStep s.shell (bytesOf log) = (s'.shell, callsOf log)
  /-- its commands are those that were executed -/
  executed : executed s'.calls = executed s.calls ++ commandsOf (callsOf log)

/-- Nothing is read. -/
theorem Logs.frame {s s' : Sys} (hshell : s'.shell = s.shell)
    (hexecuted : WaluOs.executed s'.calls = WaluOs.executed s.calls) : Logs s [] s' :=
  ⟨by rw [hshell]; rfl, by rw [hexecuted]; exact (List.append_nil _).symm⟩

theorem Logs.trans {s₁ s₂ s₃ : Sys} {log log' : List Entry} (h : Logs s₁ log s₂)
    (h' : Logs s₂ log' s₃) : Logs s₁ (log ++ log') s₃ := by
  have hcalls : callsOf (log ++ log') = callsOf log ++ callsOf log' := List.flatMap_append
  refine ⟨?_, ?_⟩
  · rw [bytesOf, List.map_append, ← bytesOf, ← bytesOf, Mealy.run_append, h.run, h'.run, hcalls]
  · rw [hcalls, commandsOf_append, h'.executed, h.executed, List.append_assoc]

/-- Nothing is read before. -/
theorem Logs.after {s₁ s₂ s₃ : Sys} {log : List Entry} (hshell : s₂.shell = s₁.shell)
    (hexecuted : WaluOs.executed s₂.calls = WaluOs.executed s₁.calls) (h : Logs s₂ log s₃) :
    Logs s₁ log s₃ :=
  ⟨by rw [← hshell]; exact h.run, by rw [← hexecuted]; exact h.executed⟩

theorem shellByte_logs (s : Sys) (c : UInt8) : Logs s [(s.shell, c)] (shellByte s c) := by
  obtain ⟨hshell, hexecuted⟩ := shellByte_step s c
  have hcalls : callsOf [(s.shell, c)] = (shellStep s.shell c).2 := List.flatMap_singleton ..
  refine ⟨?_, ?_⟩
  · rw [bytesOf, List.map_singleton, Mealy.run_singleton, hshell, hcalls]
  · rw [hexecuted, hcalls]

/-- What holds of the log of every loop: that it composes, and that it holds of one byte. A
property with these three parts holds of chunks, of both loops and of polls. -/
structure LogRule (R : Sys → List Entry → Sys → Prop) : Prop where
  /-- nothing is read -/
  quiet : ∀ {s s' : Sys}, s'.shell = s.shell → s'.calls = s.calls → R s [] s'
  trans : ∀ {s₁ s₂ s₃ : Sys} {log log' : List Entry}, R s₁ log s₂ → R s₂ log' s₃ →
    R s₁ (log ++ log') s₃
  byte : ∀ (s : Sys) (c : UInt8), R s [(s.shell, c)] (shellByte s c)

section rule

variable {R : Sys → List Entry → Sys → Prop}

theorem LogRule.chunk (h : LogRule R) (bytes : List UInt8) :
    ∀ s : Sys, R s (chunkLog s bytes) (bytes.foldl shellByte s) := by
  induction bytes with
  | nil => exact fun _ => h.quiet rfl rfl
  | cons c bytes ih => exact fun s => h.trans (h.byte s c) (ih (shellByte s c))

theorem LogRule.ptyLoop (h : LogRule R) (ptyId : ℤ) (fuel : ℕ) :
    ∀ s : Sys, R s (ptyLoopLog ptyId fuel s) (shellPtyLoop ptyId fuel s) := by
  induction fuel with
  | zero => exact fun _ => h.quiet rfl rfl
  | succ fuel ih =>
    intro s
    rw [ptyLoopLog, shellPtyLoop]
    have hread : R s [] { s with ptys := (ptySlaveRead s.ptys ptyId true 128).1 } :=
      h.quiet rfl rfl
    split_ifs
    · exact hread
    · exact h.trans (h.trans hread (h.chunk _ _)) (ih _)

theorem ttyPopChar_shell (s : Sys) :
    (ttyPopChar s).1.shell = s.shell ∧ (ttyPopChar s).1.calls = s.calls := by
  rw [ttyPopChar]
  dsimp only
  split_ifs
  · exact ⟨rfl, rfl⟩
  · exact ⟨rfl, rfl⟩

theorem LogRule.ttyLoop (h : LogRule R) (fuel : ℕ) :
    ∀ s : Sys, R s (ttyLoopLog fuel s) (shellTtyLoop fuel s) := by
  induction fuel with
  | zero => exact fun _ => h.quiet rfl rfl
  | succ fuel ih =>
    intro s
    have hpop : R s [] (ttyPopChar s).1 :=
      h.quiet (ttyPopChar_shell s).1 (ttyPopChar_shell s).2
    rw [ttyLoopLog, shellTtyLoop]
    generalize ttyPopChar s = popped at *
    obtain ⟨s', _ | c⟩ := popped
    · exact hpop
    · exact h.trans hpop (h.trans (h.byte s' c) (ih (shellByte s' c)))

/-- **A poll**, once the TTY has had its input. -/
theorem LogRule.poll (h : LogRule R) (s : Sys) :
    R (ttyPollInput s) (pollLog s) (shellPoll s) := by
  rw [pollLog, shellPoll]
  split
  · exact h.ptyLoop _ _ _
  · exact h.ttyLoop _ _

end rule

theorem logs_rule : LogRule Logs where
  quiet hshell hcalls := .frame hshell (by rw [hcalls])
  trans := .trans
  byte := shellByte_logs

theorem ttyPollLoop_frame (fuel : ℕ) :
    ∀ s : Sys, (ttyPollLoop fuel s).shell = s.shell ∧
      executed (ttyPollLoop fuel s).calls = executed s.calls := by
  induction fuel with
  | zero => exact fun s => ⟨rfl, rfl⟩
  | succ fuel ih =>
    intro s
    rw [ttyPollLoop]
    cases keyboardPopChar s.kbd with
    | mk kbd popped =>
      cases popped with
      | none => exact ⟨rfl, rfl⟩
      | some byte =>
        have hframe := ttyReceive_frame { s with kbd := kbd } byte
        obtain ⟨hshell, hexecuted⟩ := ih (ttyReceive { s with kbd := kbd } byte)
        exact ⟨hshell.trans hframe.shell, hexecuted.trans hframe.executed⟩

/-- **A poll** is a run of the machine. -/
theorem pollLog_logs (s : Sys) : Logs s (pollLog s) (shellPoll s) := by
  obtain ⟨hshell, hexecuted⟩ := ttyPollLoop_frame kbdByteQueueSize s
  exact .after hshell hexecuted (logs_rule.poll s)

/-! ## What the trace shows -/

/-- The shell's own calls in a trace of calls: what stands between them is what a command prints.
So a log can be compared with the trace, although the trace does not say who made a call. -/
inductive Shows : List ShellCall → List Call → Prop where
  /-- no calls -/
  | nil : Shows [] []
  /-- the prompt -/
  | prompt {own : List ShellCall} {calls : List Call} (h : Shows own calls) :
    Shows (.prompt :: own) (say "\x1b[1;32mwalu\x1b[0m> " :: calls)
  /-- a cleared screen -/
  | clear {own : List ShellCall} {calls : List Call} (h : Shows own calls) :
    Shows (.clear :: own) (.consoleClear :: calls)
  /-- a line that is written again -/
  | redraw (line : List UInt8) {own : List ShellCall} {calls : List Call} (h : Shows own calls) :
    Shows (.redraw line :: own) (.consoleWrite line :: calls)
  /-- a command, and what it prints in some state -/
  | execute (line : List UInt8) {output : List Call} {s : Sys}
    (houtput : (executeCommand s line).calls = s.calls ++ output) {own : List ShellCall}
    {calls : List Call} (h : Shows own calls) :
    Shows (.execute line :: own) (.executeCommand line :: (output ++ calls))

theorem Shows.append {own own' : List ShellCall} {calls calls' : List Call} (h : Shows own calls)
    (h' : Shows own' calls') : Shows (own ++ own') (calls ++ calls') := by
  induction h with
  | nil => exact h'
  | prompt _ ih => exact .prompt ih
  | clear _ ih => exact .clear ih
  | redraw line _ ih => exact .redraw line ih
  | execute line houtput _ ih =>
    rw [List.cons_append, List.cons_append, List.append_assoc]
    exact .execute line houtput ih

/-- The calls that `s'` has made since `s` are those of the log. -/
def Traces (s : Sys) (log : List Entry) (s' : Sys) : Prop :=
  ∃ calls, s'.calls = s.calls ++ calls ∧ Shows (callsOf log) calls

theorem Traces.quiet {s s' : Sys} (h : s'.calls = s.calls) : Traces s [] s' :=
  ⟨[], by rw [h, List.append_nil], .nil⟩

theorem Traces.trans {s₁ s₂ s₃ : Sys} {log log' : List Entry} (h : Traces s₁ log s₂)
    (h' : Traces s₂ log' s₃) : Traces s₁ (log ++ log') s₃ := by
  obtain ⟨calls, hcalls, hshows⟩ := h
  obtain ⟨calls', hcalls', hshows'⟩ := h'
  refine ⟨calls ++ calls', by rw [hcalls', hcalls, List.append_assoc], ?_⟩
  rw [callsOf, List.flatMap_append]
  exact hshows.append hshows'

/-- No command of the log is `selftest`. -/
def NoSelftest (log : List Entry) : Prop := ∀ line ∈ commandsOf (callsOf log), ¬IsSelftest line

theorem noSelftest_append {log log' : List Entry} :
    NoSelftest (log ++ log') ↔ NoSelftest log ∧ NoSelftest log' := by
  rw [NoSelftest, callsOf, List.flatMap_append, ← callsOf, ← callsOf, commandsOf_append]
  exact List.forall_mem_append

/-- The body of the loops: what it calls. A `selftest` is left out, since it goes through the TTY
and comes back to the shell's own input. -/
theorem shellByte_traces (s : Sys) (c : UInt8) (hself : NoSelftest [(s.shell, c)]) :
    Traces s [(s.shell, c)] (shellByte s c) := by
  have hcalls : callsOf [(s.shell, c)] = (shellStep s.shell c).2 := List.flatMap_singleton ..
  rw [NoSelftest, hcalls] at hself
  rw [Traces, hcalls]
  rw [shellStep] at hself ⊢
  rw [shellByte]
  split
  · exact ⟨_, rfl, .prompt .nil⟩
  split
  · have hlen : (shellPrompt (s.emit [.consoleClear])).shell = s.shell := rfl
    dsimp only
    rw [hlen]
    split_ifs
    · refine ⟨[.consoleClear, say "\x1b[1;32mwalu\x1b[0m> ",
        .consoleWrite (cString s.shell.shellLine)], ?_, .clear (.prompt (.redraw _ .nil))⟩
      rw [shellPrompt, Sys.emit, Sys.emit, Sys.emit, List.append_assoc, List.append_assoc]
      rfl
    · refine ⟨[.consoleClear, say "\x1b[1;32mwalu\x1b[0m> "], ?_, .clear (.prompt .nil)⟩
      rw [shellPrompt, Sys.emit, Sys.emit, List.append_assoc]
      rfl
  split
  · rename_i hinterrupt hredraw hnewline
    rw [if_neg hinterrupt, if_neg hredraw, if_pos hnewline] at hself
    dsimp only
    set line := cString (Function.update s.shell.shellLine s.shell.shellLen 0)
    obtain ⟨n, output, -, heq⟩ := executeCommand_prints (Sys.emit { s with
      shell.shellLine := Function.update s.shell.shellLine s.shell.shellLen 0 }
        [.executeCommand line]) (hself line List.mem_cons_self)
    refine ⟨.executeCommand line :: (output ++ [say "\x1b[1;32mwalu\x1b[0m> "]), ?_,
      .execute line (congrArg Sys.calls heq) (.prompt .nil)⟩
    rw [shellPrompt, Sys.emit, heq, Sys.emit]
    dsimp only
    rw [List.append_assoc, List.append_assoc, List.singleton_append]
  split
  · exact ⟨[], (List.append_nil _).symm, .nil⟩
  split
  · exact ⟨[], (List.append_nil _).symm, .nil⟩
  split
  · exact ⟨[], (List.append_nil _).symm, .nil⟩
  · exact ⟨[], (List.append_nil _).symm, .nil⟩

theorem traces_rule : LogRule fun s log s' => NoSelftest log → Traces s log s' where
  quiet _ hcalls _ := .quiet hcalls
  trans h h' hself := by
    obtain ⟨hfirst, hrest⟩ := noSelftest_append.mp hself
    exact (h hfirst).trans (h' hrest)
  byte := shellByte_traces

/-- **A poll** calls what its log says, after what the TTY echoes. So what is proved of the calls of
a log holds of the calls that a poll adds to `Sys.calls`. -/
theorem pollLog_traces (s : Sys) (hself : NoSelftest (pollLog s)) :
    Traces (ttyPollInput s) (pollLog s) (shellPoll s) :=
  traces_rule.poll s hself

/-! ## Runs -/

/-- The shell polls, in states of one kind, and between two polls anything may happen but to the
shell. -/
inductive ShellRun (polled : Sys → Prop) (start : Sys) : List Entry → Sys → Prop where
  /-- at the beginning -/
  | start : ShellRun polled start [] start
  /-- anything else -/
  | other {log : List Entry} {s : Sys} (h : ShellRun polled start log s) {s' : Sys}
    (hshell : s'.shell = s.shell) (hexecuted : executed s'.calls = executed s.calls) :
    ShellRun polled start log s'
  /-- a poll -/
  | poll {log : List Entry} {s : Sys} (h : ShellRun polled start log s) (hpolled : polled s) :
    ShellRun polled start (log ++ pollLog s) (shellPoll s)

/-- A poll that reads a PTY: a session is active, and has one. -/
def ReadsPty (s : Sys) : Prop := 0 ≤ sessionActivePty (ttyPollInput s).sessions

instance (s : Sys) : Decidable (ReadsPty s) :=
  inferInstanceAs (Decidable (0 ≤ sessionActivePty (ttyPollInput s).sessions))

/-- A poll that reads the TTY, because there is no session with a PTY. -/
def ReadsTty (s : Sys) : Prop := sessionActivePty (ttyPollInput s).sessions < 0

instance (s : Sys) : Decidable (ReadsTty s) :=
  inferInstanceAs (Decidable (sessionActivePty (ttyPollInput s).sessions < 0))

/-- Keys wait in the keyboard queue, and have not been polled. -/
def withKeys (s : Sys) (batch : List UInt8) : Sys := { s with kbd := kbdEmitSequence s.kbd batch }

/-- A batch of keys, and a poll. -/
theorem ShellRun.typed {polled : Sys → Prop} (start : Sys) (batch : List UInt8)
    (hpolled : polled (withKeys start batch)) :
    ShellRun polled start (pollLog (withKeys start batch)) (typeAndPoll start batch) := by
  have hkeys : ShellRun polled start [] (withKeys start batch) := .other .start rfl rfl
  exact .poll hkeys hpolled

/-- **A run** is a run of the machine. -/
theorem ShellRun.logs {polled : Sys → Prop} {start s : Sys} {log : List Entry}
    (h : ShellRun polled start log s) : Logs start log s := by
  induction h with
  | start => exact .frame rfl rfl
  | other h hshell hexecuted ih =>
    have hnext := ih.trans (.frame hshell hexecuted)
    rwa [List.append_nil] at hnext
  | poll h hpolled ih => exact ih.trans (pollLog_logs _)

/-! ## Lines without a limit -/

/-- The byte belongs to the line that is being typed. -/
def InLine (c : UInt8) : Bool := c ≠ 0x0A ∧ c ≠ 0x03

/-- The data bytes since the last newline or interrupt: the line that is being typed, with no
limit to its length. Control characters do not count, and redraws do not interrupt it. -/
def sinceBreak (bytes : List UInt8) : List UInt8 :=
  (bytes.rtakeWhile InLine).filter fun c => DataByte c

/-- For each newline, the data bytes in front of it. These are the lines that a shell without a
buffer would execute. -/
def typedLines (bytes : List UInt8) : List (List UInt8) :=
  (List.range bytes.length).filterMap fun i =>
    if bytes[i]? = some 0x0A then some (sinceBreak (bytes.take i)) else none

theorem sinceBreak_concat (bytes : List UInt8) (c : UInt8) :
    sinceBreak (bytes ++ [c]) =
      if InLine c then sinceBreak bytes ++ if DataByte c then [c] else [] else [] := by
  rw [sinceBreak, List.rtakeWhile_concat]
  split_ifs with hline hdata
  · rw [List.filter_append, List.filter_cons_of_pos (by simpa using hdata)]
    rfl
  · rw [List.filter_append, List.filter_cons_of_neg (by simpa using hdata)]
    rfl
  · rfl

theorem typedLines_concat (bytes : List UInt8) (c : UInt8) :
    typedLines (bytes ++ [c]) =
      typedLines bytes ++ if c = 0x0A then [sinceBreak bytes] else [] := by
  -- the newlines before find the same bytes in front of them
  have hold : ∀ i ∈ List.range bytes.length,
      (if (bytes ++ [c])[i]? = some 0x0A then some (sinceBreak ((bytes ++ [c]).take i)) else none) =
        if bytes[i]? = some 0x0A then some (sinceBreak (bytes.take i)) else none := by
    intro i hi
    have hlt := List.mem_range.mp hi
    rw [List.getElem?_append_left hlt, List.take_append_of_le_length (Nat.le_of_lt hlt)]
  rw [typedLines, List.length_append, List.length_singleton, List.range_succ, List.filterMap_append,
    List.filterMap_congr hold, ← typedLines]
  congr 1
  rw [List.filterMap_cons, List.getElem?_concat_length, List.take_left]
  by_cases hc : c = 0x0A
  · rw [if_pos hc, if_pos (congrArg some hc)]
    rfl
  · rw [if_neg hc, if_neg fun h => hc (Option.some.inj h)]
    rfl

/-- No data byte is NUL. -/
theorem ne_zero_of_mem_sinceBreak {bytes : List UInt8} :
    ∀ b ∈ (sinceBreak bytes).take 127, b ≠ 0 := by
  intro b hb
  have hmem : b ∈ sinceBreak bytes := List.mem_of_mem_take hb
  have hdata : DataByte b := of_decide_eq_true (List.mem_filter.mp hmem).2
  exact hdata.ne (by decide)

/-! ## What the shell keeps -/

/-- The shell holds the first 127 bytes of the line. -/
def Holds (sh : Shell) (bytes : List UInt8) : Prop := sh.line = (sinceBreak bytes).take 127

theorem Holds.shellLen {sh : Shell} {bytes : List UInt8} (h : Holds sh bytes) :
    sh.shellLen = min 127 (sinceBreak bytes).length := by
  have hlen := congrArg List.length h
  rwa [Shell.length_line, List.length_take] at hlen

/-- A line that ends is handed over as it is held. -/
theorem Holds.cString {sh : Shell} {bytes : List UInt8} (h : Holds sh bytes) :
    cString (Function.update sh.shellLine sh.shellLen 0) = (sinceBreak bytes).take 127 := by
  have hlen : sh.shellLen < shellLineMax := by
    rw [h.shellLen]
    exact Nat.lt_succ_of_le (Nat.min_le_left _ _)
  rw [cString_terminated sh hlen (h ▸ ne_zero_of_mem_sinceBreak), h]

/-- A byte that is no data, and ends nothing. -/
theorem Holds.other {sh : Shell} {bytes : List UInt8} (h : Holds sh bytes) {c : UInt8}
    (hline : InLine c = true) (hdata : ¬DataByte c) : Holds sh (bytes ++ [c]) := by
  rw [Holds, sinceBreak_concat, if_pos hline, if_neg hdata, List.append_nil]
  exact h

/-- A data byte, when there is room for it and for the NUL. -/
theorem Holds.push {sh : Shell} {bytes : List UInt8} (h : Holds sh bytes) {c : UInt8}
    (hline : InLine c = true) (hdata : DataByte c) (hroom : sh.shellLen + 1 < shellLineMax) :
    Holds ⟨Function.update sh.shellLine sh.shellLen c, sh.shellLen + 1⟩ (bytes ++ [c]) := by
  have hlen := h.shellLen
  have hshort : (sinceBreak bytes).length < 127 := by
    by_contra hlong
    rw [Nat.min_eq_left (Nat.not_lt.mp hlong)] at hlen
    rw [hlen] at hroom
    exact absurd hroom (by decide)
  rw [Holds, Shell.line_push, sinceBreak_concat, if_pos hline, if_pos hdata, h,
    List.take_of_length_le (Nat.le_of_lt hshort), List.take_of_length_le]
  rw [List.length_append, List.length_singleton]
  exact hshort

/-- And when there is none: it is dropped. -/
theorem Holds.drop {sh : Shell} {bytes : List UInt8} (h : Holds sh bytes) {c : UInt8}
    (hline : InLine c = true) (hdata : DataByte c) (hroom : ¬sh.shellLen + 1 < shellLineMax) :
    Holds sh (bytes ++ [c]) := by
  have hlen := h.shellLen
  have hlong : 127 ≤ (sinceBreak bytes).length := by
    by_contra hshort
    rw [Nat.min_eq_right (Nat.le_of_lt (Nat.not_le.mp hshort))] at hlen
    refine hroom (Nat.succ_lt_succ ?_)
    rw [hlen]
    exact Nat.not_le.mp hshort
  rw [Holds, sinceBreak_concat, if_pos hline, if_pos hdata, List.take_append_of_le_length hlong]
  exact h

/-- **A byte**: what the shell holds then, and what it executes. Together they are always the
lines typed so far, cut to 127 bytes, and the pending one. -/
theorem shellStep_holds {sh : Shell} {bytes : List UInt8} (h : Holds sh bytes) (c : UInt8) :
    Holds (shellStep sh c).1 (bytes ++ [c]) ∧
      (typedLines bytes).map (List.take 127) ++ commandsOf (shellStep sh c).2 =
        (typedLines (bytes ++ [c])).map (List.take 127) := by
  have hbreak : ∀ line, InLine c = false → Holds ⟨line, 0⟩ (bytes ++ [c]) := by
    intro line hline
    rw [Holds, sinceBreak_concat, hline]
    rfl
  rw [typedLines_concat, List.map_append, List.append_right_inj, shellStep]
  split
  · rename_i hc
    subst hc
    exact ⟨hbreak _ rfl, rfl⟩
  split
  · rename_i hc
    subst hc
    rw [if_neg (by decide : ¬(0x0C : UInt8) = 0x0A)]
    refine ⟨h.other rfl (by decide), ?_⟩
    split_ifs <;> rfl
  split
  · rename_i hc
    subst hc
    rw [h.cString]
    exact ⟨hbreak _ rfl, rfl⟩
  rename_i hinterrupt _ hnewline
  -- every other byte stays in the line, if it is data
  have hline : InLine c = true := decide_eq_true ⟨hnewline, hinterrupt⟩
  split
  · rename_i hc
    subst hc
    exact ⟨h.other rfl (by decide), rfl⟩
  split
  · rename_i hc
    exact ⟨h.other hline fun hdata => dataByte_iff.mp hdata hc, rfl⟩
  · rename_i hc
    split_ifs with hroom
    · exact ⟨h.push hline (dataByte_iff.mpr hc) hroom, rfl⟩
    · exact ⟨h.drop hline (dataByte_iff.mpr hc) hroom, rfl⟩

/-- A stream of bytes. -/
theorem run_holds (rest : List UInt8) :
    ∀ {sh : Shell} {bytes : List UInt8}, Holds sh bytes →
      (typedLines bytes).map (List.take 127) ++ commandsOf (Mealy.run shellStep sh rest).2 =
        (typedLines (bytes ++ rest)).map (List.take 127) := by
  induction rest with
  | nil => exact fun _ => by rw [Mealy.run_nil, List.append_nil]; exact List.append_nil _
  | cons c rest ih =>
    intro sh bytes h
    obtain ⟨hholds, hlines⟩ := shellStep_holds h c
    rw [Mealy.run_cons, commandsOf_append, ← List.append_assoc, hlines, ih hholds,
      List.append_assoc, List.singleton_append]

/-- **What is executed** in a run: the first 127 bytes of each line. -/
theorem shellRun_executed {polled : Sys → Prop} {start s : Sys} {log : List Entry}
    (h : ShellRun polled start log s) (hempty : start.shell.shellLen = 0) :
    executed s.calls = executed start.calls ++ (typedLines (bytesOf log)).map (List.take 127) := by
  have hstart : Holds start.shell [] := by
    rw [Holds, Shell.line, hempty]
    rfl
  have hlines := run_holds (bytesOf log) hstart
  rw [h.logs.run] at hlines
  rw [h.logs.executed, ← List.nil_append (bytesOf log), ← hlines]
  rfl

/-- **The lines are executed as they were typed** if no line is longer than 127 data bytes when
its newline comes, and only then. -/
theorem shellRun_executes_iff {polled : Sys → Prop} {boot s : Sys} {log : List Entry}
    (h : ShellRun polled (shellInit boot) log s) :
    executed s.calls = executed (shellInit boot).calls ++ typedLines (bytesOf log) ↔
      ∀ line ∈ typedLines (bytesOf log), line.length ≤ 127 := by
  rw [shellRun_executed h rfl, List.append_right_inj]
  constructor
  · intro heq line hline
    have hmap : (typedLines (bytesOf log)).map (List.take 127) =
        (typedLines (bytesOf log)).map id := by rw [heq, List.map_id]
    exact (List.take_eq_self_iff line).mp (List.map_inj_left.mp hmap line hline)
  · intro hshort
    exact (List.map_congr_left fun line hline =>
      List.take_of_length_le (hshort line hline)).trans (List.map_id _)

/-- A poll after some keys, on the system that boots. -/
theorem booted_run (batch : List UInt8)
    (hpolled : ReadsPty (withKeys (kernelInput sysZero) batch)) :
    ShellRun ReadsPty (kernelInput sysZero) (pollLog (withKeys (kernelInput sysZero) batch))
      (typeAndPoll (kernelInput sysZero) batch) :=
  .typed _ _ hpolled

theorem hello_executed :
    executed (typeAndPoll (kernelInput sysZero) (text "echo hi\n")).calls =
        executed (kernelInput sysZero).calls ++
          typedLines (bytesOf (pollLog (withKeys (kernelInput sysZero) (text "echo hi\n")))) ↔
      ∀ line ∈ typedLines (bytesOf (pollLog (withKeys (kernelInput sysZero) (text "echo hi\n")))),
        line.length ≤ 127 :=
  shellRun_executes_iff (booted_run (text "echo hi\n") (by decide +kernel))

/-- 128 letters, and a newline. -/
def overlongLine : List UInt8 := List.replicate 128 0x61 ++ [0x0A]

/-- A line of 128 letters is executed without the last one. -/
theorem overlongLine_shortened :
    ShellRun ReadsPty (kernelInput sysZero) (pollLog (withKeys (kernelInput sysZero) overlongLine))
        (typeAndPoll (kernelInput sysZero) overlongLine) ∧
      typedLines (bytesOf (pollLog (withKeys (kernelInput sysZero) overlongLine))) =
        [List.replicate 128 0x61] ∧
      executed (typeAndPoll (kernelInput sysZero) overlongLine).calls = [List.replicate 127 0x61] ∧
      executed (typeAndPoll (kernelInput sysZero) overlongLine).calls ≠
        executed (kernelInput sysZero).calls ++
          typedLines (bytesOf (pollLog (withKeys (kernelInput sysZero) overlongLine))) := by
  have hlines : typedLines (bytesOf (pollLog (withKeys (kernelInput sysZero) overlongLine))) =
      [List.replicate 128 0x61] := by decide +kernel
  have hrun := booted_run overlongLine (by decide +kernel)
  have hboot : executed (kernelInput sysZero).calls = [] := by decide +kernel
  have hexecuted : executed (typeAndPoll (kernelInput sysZero) overlongLine).calls =
      [List.replicate 127 0x61] := by
    rw [shellRun_executed hrun rfl, hboot, hlines]
    decide
  refine ⟨hrun, hlines, hexecuted, ?_⟩
  rw [hexecuted, hlines, hboot]
  decide

/-! ## The two input paths -/

/-- **The input paths agree**: the same bytes make the same calls, and leave the same line. The
calls are those of the two logs, and by `pollLog_traces` each poll of a run makes exactly the calls
of its log, in their order, with nothing between them but what a command prints. -/
theorem shellPaths_agree {start start' s s' : Sys} {log log' : List Entry}
    (hpty : ShellRun ReadsPty start log s) (htty : ShellRun ReadsTty start' log' s')
    (hshell : start.shell = start'.shell) (hbytes : bytesOf log = bytesOf log') :
    callsOf log = callsOf log' ∧ s.shell = s'.shell := by
  have hrun := hpty.logs.run
  rw [hshell, hbytes, htty.logs.run] at hrun
  exact ⟨(Prod.mk.inj hrun).2.symm, (Prod.mk.inj hrun).1.symm⟩

/-- A system without sessions. -/
def noSession : Sys := shellInit (ttyInit { sysZero with sessions := sessionInit, ptys := ptyInit })

theorem hello_paths :
    callsOf (pollLog (withKeys (kernelInput sysZero) (text "echo hi\n"))) =
        callsOf (pollLog (withKeys noSession (text "echo hi\n"))) ∧
      (typeAndPoll (kernelInput sysZero) (text "echo hi\n")).shell =
        (typeAndPoll noSession (text "echo hi\n")).shell := by
  have htty : ReadsTty (withKeys noSession (text "echo hi\n")) := by decide +kernel
  exact shellPaths_agree (booted_run (text "echo hi\n") (by decide +kernel))
    (.typed noSession (text "echo hi\n") htty) rfl (by decide +kernel)

end WaluOs
