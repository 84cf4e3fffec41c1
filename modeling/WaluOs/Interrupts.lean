import WaluOs.ShellReads

/-!
# After an interrupt

Ctrl-C is the byte 3. When it passes the escape filter, the pending line is discarded
and the byte reaches the shell, which discards its own line; and what is typed then is
executed as if the TTY were fresh. When an escape sequence is open, it is discarded like
any other byte of the sequence (`interrupts_iff`).

The comparison is one of two runs, the one that goes on after the interrupt and the one
that starts on a fresh TTY. `Alike` is what they agree on; each function of the poll
keeps it. Counters, echo, history and the bytes behind the two lines are left out of it,
since no function of the poll reads them. When the byte comes in the middle of a batch, the
two runs have cut the stream differently, and the PTY is in different places of its ring. Then
they are compared through the machines that they run (`commands_interrupt`).
-/

namespace WaluOs

variable {keys : List UInt8} {bs bt : List (List UInt8)} {s t s' t' : Sys}

/-- Two lists that start with a byte or with none, where none means that they are empty. -/
theorem option_front {a b : Option UInt8} {xs ys : List UInt8}
    (h : a.toList ++ xs = b.toList ++ ys) (ha : a.toList = [] → xs = [])
    (hb : b.toList = [] → ys = []) : a = b ∧ xs = ys := by
  cases a with
  | none =>
    obtain rfl := ha rfl
    cases b with
    | none => exact ⟨rfl, h⟩
    | some c => cases h
  | some c =>
    cases b with
    | none =>
      obtain rfl := hb rfl
      cases h
    | some c' =>
      obtain ⟨rfl, rfl⟩ := List.cons.inj h
      exact ⟨rfl, rfl⟩

/-! ## Two systems that behave alike -/

/-- `s` and `t` agree on all that the TTY and the shell go by, and have executed the same commands
after `bs` and `bt`. Two systems that are alike now are alike after every further poll, whatever
else distinguishes them. -/
structure Alike (bs bt : List (List UInt8)) (s t : Sys) : Prop where
  /-- the PTY table -/
  ptys : s.ptys = t.ptys
  /-- what the reader finds -/
  queue : s.readerQueue = t.readerQueue
  /-- where the TTY delivers -/
  sessionPty : s.tty.ttySessionPty = t.tty.ttySessionPty
  /-- the escape filter and the line buffer -/
  discipline : s.discipline = t.discipline
  /-- the sessions -/
  sessions : s.sessions = t.sessions
  /-- the line of the shell -/
  line : s.shell.line = t.shell.line
  /-- the commands -/
  executed : ∃ xs, executed s.calls = bs ++ xs ∧ executed t.calls = bt ++ xs

namespace Alike

theorem attached (h : Alike bs bt s t) : s.attached = t.attached := by
  rw [Sys.attached, Sys.attached, h.sessionPty, h.ptys]

theorem pushedPtys (h : Alike bs bt s t) (bytes : List UInt8) :
    s.pushedPtys bytes = t.pushedPtys bytes := by
  rw [Sys.pushedPtys, Sys.pushedPtys, h.attached, h.sessionPty, h.ptys]

theorem readerRoom (h : Alike bs bt s t) : s.readerRoom = t.readerRoom := by
  rw [Sys.readerRoom, Sys.readerRoom, h.queue]

/-- Only what the shell keeps has changed. -/
theorem shell (h : Alike bs bt s t) (hs : ShellFrame s s') (ht : ShellFrame t t')
    (hline : s'.shell.line = t'.shell.line) (xs : List (List UInt8))
    (hxs : WaluOs.executed s'.calls = WaluOs.executed s.calls ++ xs)
    (hxt : WaluOs.executed t'.calls = WaluOs.executed t.calls ++ xs) : Alike bs bt s' t' := by
  obtain ⟨ys, hys, hyt⟩ := h.executed
  refine ⟨?_, ?_, ?_, ?_, ?_, hline, ys ++ xs, ?_, ?_⟩
  · rw [hs.ptys, ht.ptys, h.ptys]
  · rw [hs.readerQueue, ht.readerQueue, h.queue]
  · rw [hs.tty, ht.tty, h.sessionPty]
  · rw [hs.discipline, ht.discipline, h.discipline]
  · rw [hs.sessions, ht.sessions, h.sessions]
  · rw [hxs, hys, List.append_assoc]
  · rw [hxt, hyt, List.append_assoc]

/-- Calls to the console do not count. -/
theorem emit (h : Alike bs bt s t) {cs ds : List Call} (hcs : WaluOs.executed cs = [])
    (hds : WaluOs.executed ds = []) : Alike bs bt (s.emit cs) (t.emit ds) := by
  refine h.shell ⟨rfl, rfl, rfl, rfl⟩ ⟨rfl, rfl, rfl, rfl⟩ h.line [] ?_ ?_
  · rw [Sys.emit, executed_append, hcs]
  · rw [Sys.emit, executed_append, hds]

/-- Only the PTYs have changed, and none was taken back. -/
theorem setPtys (h : Alike bs bt s t) (hlive : Live keys s) {p : Ptys}
    (hkeep : ∀ i : ℕ, ptyIsValid s.ptys i = true → ptyIsValid p i = true) :
    Alike bs bt { s with ptys := p } { t with ptys := p } := by
  refine ⟨rfl, ?_, h.sessionPty, h.discipline, h.sessions, h.line, h.executed⟩
  cases hlive.wired with
  | pty i hpty hvalid hactive =>
    have hpty' : t.tty.ttySessionPty = i := h.sessionPty.symm.trans hpty
    rw [Live.readerQueue_pty (s := { s with ptys := p }) hpty (hkeep i hvalid),
      Live.readerQueue_pty (s := { t with ptys := p }) hpty' (hkeep i hvalid)]
  | ring hpty hactive =>
    have hpty' : t.tty.ttySessionPty < 0 := h.sessionPty.symm.trans_lt hpty
    have hqueue := h.queue
    rw [Live.readerQueue_none hpty, Live.readerQueue_none hpty'] at hqueue
    rw [Live.readerQueue_none (s := { s with ptys := p }) hpty,
      Live.readerQueue_none (s := { t with ptys := p }) hpty']
    exact hqueue

/-- A byte is received. -/
theorem receive (h : Alike bs bt s t) {keys' : List UInt8} (hs : Live keys s) (ht : Live keys' t)
    (byte : UInt8) : Alike bs bt (ttyReceive s byte) (ttyReceive t byte) := by
  have hrs := ttyReceive_received hs.reader hs.canonical byte
  have hrt := ttyReceive_received ht.reader ht.canonical byte
  rw [h.discipline] at hrs
  have hfs := ttyReceive_frame s byte
  have hft := ttyReceive_frame t byte
  refine ⟨?_, ?_, ?_, ?_, ?_, ?_, ?_⟩
  · rw [hrs.pushes.ptys, hrt.pushes.ptys, h.pushedPtys]
  · rw [hrs.pushes.queue, hrt.pushes.queue, h.queue, h.readerRoom]
  · rw [hrs.pushes.sessionPty, hrt.pushes.sessionPty, h.sessionPty]
  · rw [hrs.discipline, hrt.discipline]
  · rw [hfs.sessions, hft.sessions, h.sessions]
  · rw [hfs.shell, hft.shell, h.line]
  · rw [hfs.executed, hft.executed]
    exact h.executed

theorem receives {keys' : List UInt8} (bytes : List UInt8) :
    ∀ {s t : Sys}, Alike bs bt s t → Live keys s → Live keys' t →
      Alike bs bt (bytes.foldl ttyReceive s) (bytes.foldl ttyReceive t) := by
  induction bytes with
  | nil => exact fun h _ _ => h
  | cons b bytes ih =>
    intro s t h hs ht
    exact ih (h.receive hs ht b) (hs.receive b) (ht.receive b)

/-! ### Commands -/

variable {keys' : List UInt8}

/-- The active PTY is read empty. -/
theorem drainActivePty (h : Alike bs bt s t) (hs : Live keys s) :
    Alike bs bt (drainActivePty s) (drainActivePty t) := by
  have hactive : sessionActivePty t.sessions = sessionActivePty s.sessions := by rw [h.sessions]
  rw [WaluOs.drainActivePty, WaluOs.drainActivePty, hactive, ← h.ptys]
  split
  · exact h
  · rename_i hactive
    obtain ⟨i, hi⟩ := Int.eq_ofNat_of_zero_le (not_lt.mp hactive)
    obtain ⟨-, hvalid⟩ := hs.pty_of_active hi
    rw [hi]
    have hdrain := drainPty_drained 128 ptyQueueSize hs.reader.ptys hvalid
    exact h.setPtys hs fun j hj => (hdrain.valid j).trans hj

/-- `selftest` does the same to both. -/
theorem cmdSelftest (h : Alike bs bt s t) (hs : Live keys s) (ht : Live keys' t) :
    Alike bs bt (cmdSelftest s) (cmdSelftest t) := by
  obtain ⟨cs, hcs, heqs⟩ := cmdSelftest_eq s
  obtain ⟨ds, hds, heqt⟩ := cmdSelftest_eq t
  rw [heqs, heqt, ← h.ptys]
  split
  · exact h.emit hcs hds
  · rename_i hid
    obtain ⟨hok, hothers⟩ := selftestPtys_spec hs.reader.ptys hid
    have hkeep : ∀ i : ℕ, ptyIsValid s.ptys i = true →
        ptyIsValid (selftestPtys s.ptys) i = true := fun i hi => (hothers i hi).1
    have hs' := hs.setPtys hok hkeep
    have ht' := ht.setPtys hok fun i hi => hkeep i (h.ptys ▸ hi)
    have htyped := (h.setPtys hs hkeep).receives (List.replicate 899 0x78 ++ [0x0A]) hs' ht'
    exact (htyped.drainActivePty (hs'.receives _)).emit hcs hds

/-- Every command does the same to both. -/
theorem executeCommand (h : Alike bs bt s t) (hs : Live keys s) (ht : Live keys' t)
    (line : List UInt8) : Alike bs bt (executeCommand s line) (executeCommand t line) := by
  by_cases hself : IsSelftest line
  · have hpush : ∀ {u : Sys} {ks : List UInt8}, Live ks u →
        Quiet ks u ({ u with rustHistoryCount := u.rustHistoryCount + 1 }.emit
          [.rustHistoryPush (text "selftest")]) := fun hu => hu.shell rfl rfl rfl rfl hu.shellLen
    rw [executeCommand_selftest s hself, executeCommand_selftest t hself]
    refine Alike.cmdSelftest ?_ (hpush hs).live (hpush ht).live
    refine h.shell ⟨rfl, rfl, rfl, rfl⟩ ⟨rfl, rfl, rfl, rfl⟩ h.line [] ?_ ?_
    · exact executed_append _ _
    · exact executed_append _ _
  · have hps := executeCommand_prints s hself
    have hpt := executeCommand_prints t hself
    refine h.shell ⟨hps.frame.kbd, hps.ptys, hps.frame.sessions, hps.tty⟩
      ⟨hpt.frame.kbd, hpt.ptys, hpt.frame.sessions, hpt.tty⟩ ?_ [] ?_ ?_
    · rw [hps.frame.shell, hpt.frame.shell, h.line]
    · rw [hps.frame.executed, List.append_nil]
    · rw [hpt.frame.executed, List.append_nil]

end Alike

/-! ## The shell -/

/-- A read of the TTY changes its queue. -/
theorem ttyPopChar_eq (s : Sys) :
    (ttyPopChar s).1 =
      { s with tty.ttyReadQueue := (ttyPopChar s).1.tty.ttyReadQueue } := by
  rw [ttyPopChar]
  split <;> rfl

/-- Clearing the screen prints the line again. -/
theorem shellByte_clear (s : Sys) :
    ∃ cs, executed cs = [] ∧ shellByte s 0x0C = s.emit cs := by
  rw [shellByte, if_neg (by decide), if_pos rfl]
  dsimp only
  split
  · refine ⟨[.consoleClear, say "\x1b[1;32mwalu\x1b[0m> ", .consoleWrite (cString s.shell.shellLine)],
      rfl, ?_⟩
    simp only [shellPrompt, Sys.emit, List.append_assoc, List.cons_append, List.nil_append]
  · refine ⟨[.consoleClear, say "\x1b[1;32mwalu\x1b[0m> "], rfl, ?_⟩
    simp only [shellPrompt, Sys.emit, List.append_assoc, List.cons_append, List.nil_append]

namespace Alike

variable {keys' : List UInt8}

/-- The end of a line. On both sides the same line is executed. What a command prints may differ,
but not what it does to the PTYs, the sessions and the TTY. -/
theorem shellByte_newline (h : Alike bs bt s t) (hs : Live keys s) (ht : Live keys' t) :
    Alike bs bt (WaluOs.shellByte s 0x0A) (WaluOs.shellByte t 0x0A) := by
  have hstr : cString (Function.update s.shell.shellLine s.shell.shellLen 0) =
      cString (Function.update t.shell.shellLine t.shell.shellLen 0) := by
    rw [cString_line _ hs.shellLen, cString_line _ ht.shellLen, h.line]
  rw [WaluOs.shellByte, if_neg (by decide), if_neg (by decide), if_pos rfl, WaluOs.shellByte,
    if_neg (by decide), if_neg (by decide), if_pos rfl]
  dsimp only
  rw [hstr]
  set line := cString (Function.update t.shell.shellLine t.shell.shellLen 0)
  -- the line gets its NUL, and the command is recorded
  have hline : ∀ u : Sys, Shell.line { u.shell with
      shellLine := Function.update u.shell.shellLine u.shell.shellLen 0 } = u.shell.line :=
    fun u => u.shell.line_update 0 _ le_rfl
  have hbefore : Alike bs bt
      (Sys.emit { s with
        shell.shellLine := Function.update s.shell.shellLine s.shell.shellLen 0 }
        [.executeCommand line])
      (Sys.emit { t with
        shell.shellLine := Function.update t.shell.shellLine t.shell.shellLen 0 }
        [.executeCommand line]) :=
    h.shell ⟨rfl, rfl, rfl, rfl⟩ ⟨rfl, rfl, rfl, rfl⟩
      ((hline s).trans (h.line.trans (hline t).symm)) [line] (executed_append _ _)
      (executed_append _ _)
  have hlive : ∀ {u : Sys} {ks : List UInt8}, Live ks u →
      Quiet ks u (Sys.emit { u with
        shell.shellLine := Function.update u.shell.shellLine u.shell.shellLen 0 }
        [.executeCommand line]) := fun hu => hu.shell rfl rfl rfl rfl hu.shellLen
  have hrun := hbefore.executeCommand (hlive hs).live (hlive ht).live line
  exact hrun.shell ⟨rfl, rfl, rfl, rfl⟩ ⟨rfl, rfl, rfl, rfl⟩ rfl [] (executed_append _ _)
    (executed_append _ _)

/-- One byte. The two systems take the same branch, and execute the same command if it ends a
line. -/
theorem shellByte (h : Alike bs bt s t) (hs : Live keys s) (ht : Live keys' t) (c : UInt8) :
    Alike bs bt (shellByte s c) (shellByte t c) := by
  by_cases hnl : c = 0x0A
  · subst hnl
    exact h.shellByte_newline hs ht
  by_cases hclear : c = 0x0C
  · subst hclear
    obtain ⟨cs, hcs, heqs⟩ := shellByte_clear s
    obtain ⟨ds, hds, heqt⟩ := shellByte_clear t
    rw [heqs, heqt]
    exact h.emit hcs hds
  have hlen : s.shell.shellLen = t.shell.shellLen := by
    rw [← Shell.length_line, h.line, Shell.length_line]
  rw [WaluOs.shellByte, WaluOs.shellByte, if_neg hclear, if_neg hnl, if_neg hclear, if_neg hnl]
  by_cases h3 : c = 0x03
  · rw [if_pos h3, if_pos h3]
    exact h.shell ⟨rfl, rfl, rfl, rfl⟩ ⟨rfl, rfl, rfl, rfl⟩ rfl [] (executed_append _ _)
      (executed_append _ _)
  rw [if_neg h3, if_neg h3]
  -- Control characters but the tab are dropped by both.
  by_cases hdrop : c = 0x04 ∨ ((c < 0x20 ∨ c = 0x7F) ∧ c ≠ 0x09)
  · rcases hdrop with h4 | hctl
    · rw [if_pos h4, if_pos h4]
      exact h
    · rw [if_pos hctl, if_pos hctl, ite_self, ite_self]
      exact h
  obtain ⟨h4, hctl⟩ := not_or.mp hdrop
  rw [if_neg h4, if_neg h4, if_neg hctl, if_neg hctl]
  -- The lengths agree, so both have room or neither has.
  by_cases hfits : s.shell.shellLen + 1 < shellLineMax
  · rw [if_pos hfits, if_pos (hlen ▸ hfits)]
    refine h.shell ⟨rfl, rfl, rfl, rfl⟩ ⟨rfl, rfl, rfl, rfl⟩ ?_ [] (List.append_nil _).symm
      (List.append_nil _).symm
    exact (Shell.line_push _ c).trans ((congrArg (· ++ [c]) h.line).trans (Shell.line_push _ c).symm)
  · rw [if_neg hfits, if_neg (hlen ▸ hfits)]
    exact h

theorem shellBytes (bytes : List UInt8) :
    ∀ {s t : Sys}, Alike bs bt s t → Live keys s → Live keys' t →
      Alike bs bt (bytes.foldl WaluOs.shellByte s) (bytes.foldl WaluOs.shellByte t) := by
  induction bytes with
  | nil => exact fun h _ _ => h
  | cons c bytes ih =>
    intro s t h hs ht
    exact ih (h.shellByte hs ht c) (shellByte_continues hs c).live (shellByte_continues ht c).live

/-! ### Polls -/

/-- The PTY loop. -/
theorem shellPtyLoop {i : ℕ} (fuel : ℕ) :
    ∀ {s t : Sys}, Alike bs bt s t → Live keys s → Live keys' t →
      sessionActivePty s.sessions = i →
      Alike bs bt (shellPtyLoop i fuel s) (shellPtyLoop i fuel t) := by
  induction fuel with
  | zero => exact fun h _ _ _ => h
  | succ fuel ih =>
    intro s t h hs ht hactive
    have hreads := ptySlaveRead_reads hs hactive
    have hreadt := ptySlaveRead_reads ht (h.sessions ▸ hactive)
    obtain ⟨-, hvalid⟩ := hs.pty_of_active hactive
    have hread := h.setPtys hs (p := (ptySlaveRead s.ptys i true 128).1) fun j hj =>
      (ptyIsValid_ptyRead ..).trans hj
    rw [← h.ptys] at hreadt
    rw [WaluOs.shellPtyLoop, WaluOs.shellPtyLoop, ← h.ptys]
    split
    · exact hread
    · exact ih (hread.shellBytes _ hreads.live hreadt.live) hreads.continues.live
        hreadt.continues.live ((congrArg sessionActivePty hreads.continues.sessions).trans hactive)

/-- Two reads of the TTY. -/
theorem ttyPopChar (h : Alike bs bt s t)
    (hs : ReadsChunk keys s (ttyPopChar s).1 (ttyPopChar s).2.toList)
    (ht : ReadsChunk keys' t (ttyPopChar t).1 (ttyPopChar t).2.toList) :
    (WaluOs.ttyPopChar s).2 = (WaluOs.ttyPopChar t).2 ∧
      Alike bs bt (WaluOs.ttyPopChar s).1 (WaluOs.ttyPopChar t).1 := by
  obtain ⟨hchar, hqueue⟩ := option_front (hs.queue.symm.trans (h.queue.trans ht.queue))
    hs.rest ht.rest
  refine ⟨hchar, ?_⟩
  rw [ttyPopChar_eq s, ttyPopChar_eq t] at hqueue ⊢
  exact ⟨h.ptys, hqueue, h.sessionPty, h.discipline, h.sessions, h.line, h.executed⟩

/-- The TTY loop. -/
theorem shellTtyLoop (fuel : ℕ) :
    ∀ {s t : Sys}, Alike bs bt s t → Live keys s → Live keys' t →
      sessionActivePty s.sessions < 0 →
      Alike bs bt (shellTtyLoop fuel s) (shellTtyLoop fuel t) := by
  induction fuel with
  | zero => exact fun h _ _ _ => h
  | succ fuel ih =>
    intro s t h hs ht hactive
    have hreads := ttyPopChar_reads hs hactive
    have hreadt := ttyPopChar_reads ht (h.sessions ▸ hactive)
    obtain ⟨hchar, hread⟩ := h.ttyPopChar hreads hreadt
    rw [WaluOs.shellTtyLoop, WaluOs.shellTtyLoop]
    generalize WaluOs.ttyPopChar s = r at hreads hchar hread ⊢
    generalize WaluOs.ttyPopChar t = r' at hreadt hchar hread ⊢
    obtain ⟨u, a⟩ := r
    obtain ⟨v, a'⟩ := r'
    obtain rfl : a = a' := hchar
    cases a with
    | none => exact hread
    | some c =>
      exact ih (hread.shellByte hreads.live hreadt.live c) hreads.continues.live
        hreadt.continues.live
        ((congrArg sessionActivePty hreads.continues.sessions).trans_lt hactive)

/-- The receive loop. -/
theorem ttyPollLoop (fuel : ℕ) :
    ∀ {s t : Sys} {keys : List UInt8}, Alike bs bt s t → Live keys s → Live keys t →
      Alike bs bt (ttyPollLoop fuel s) (ttyPollLoop fuel t) := by
  induction fuel with
  | zero => exact fun h _ _ => h
  | succ fuel ih =>
    intro s t keys h hs ht
    rw [WaluOs.ttyPollLoop, WaluOs.ttyPollLoop]
    cases keys with
    | nil =>
      rw [keyboardPopChar_none hs.kbd, keyboardPopChar_none ht.kbd]
      exact h
    | cons byte keys =>
      obtain ⟨k, hpops, hks⟩ := keyboardPopChar_some hs.kbd
      obtain ⟨k', hpopt, hkt⟩ := keyboardPopChar_some ht.kbd
      rw [hpops, hpopt]
      have hlives := hs.setKbd hks
      have hlivet := ht.setKbd hkt
      have hkbd : Alike bs bt { s with kbd := k } { t with kbd := k' } :=
        ⟨h.ptys, h.queue, h.sessionPty, h.discipline, h.sessions, h.line, h.executed⟩
      exact ih (hkbd.receive hlives hlivet byte) (hlives.receive byte) (hlivet.receive byte)

/-- **A poll** does the same to both. -/
theorem typeAndPoll (h : Alike bs bt s t) (hs : Settled s) (ht : Settled t) {batch : List UInt8}
    (hlen : batch.length ≤ 1023) : Alike bs bt (typeAndPoll s batch) (typeAndPoll t batch) := by
  have hkbd : Alike bs bt { s with kbd := kbdEmitSequence s.kbd batch }
      { t with kbd := kbdEmitSequence t.kbd batch } :=
    ⟨h.ptys, h.queue, h.sessionPty, h.discipline, h.sessions, h.line, h.executed⟩
  have hpoll := hkbd.ttyPollLoop kbdByteQueueSize (hs.typed hlen) (ht.typed hlen)
  have hlives := ttyPollLoop_live kbdByteQueueSize (hs.typed hlen) (Nat.lt_succ_of_le hlen)
  have hlivet := ttyPollLoop_live kbdByteQueueSize (ht.typed hlen) (Nat.lt_succ_of_le hlen)
  rw [WaluOs.typeAndPoll, WaluOs.typeAndPoll, shellPoll, shellPoll, ttyPollInput, ttyPollInput]
  have hactive := congrArg sessionActivePty hpoll.sessions
  rw [← hactive]
  split
  · rename_i hpty
    obtain ⟨i, hi⟩ := Int.eq_ofNat_of_zero_le hpty
    rw [hi]
    exact hpoll.shellPtyLoop shellFuel hlives hlivet hi
  · rename_i hpty
    exact hpoll.shellTtyLoop shellFuel hlives hlivet (not_le.mp hpty)

theorem typeAndPolls (batches : List (List UInt8)) :
    ∀ {s t : Sys}, Alike bs bt s t → Settled s → Settled t →
      (∀ batch ∈ batches, batch.length ≤ 1023) →
      Alike bs bt (batches.foldl WaluOs.typeAndPoll s) (batches.foldl WaluOs.typeAndPoll t) := by
  induction batches with
  | nil => exact fun h _ _ _ => h
  | cons batch batches ih =>
    intro s t h hs ht hlen
    obtain ⟨hbatch, hbatches⟩ := List.forall_mem_cons.mp hlen
    exact ih (h.typeAndPoll hs ht hbatch) (typeAndPoll_settled hs hbatch)
      (typeAndPoll_settled ht hbatch) hbatches

end Alike

/-! ## The interrupt -/

/-- A typing session from `s`, in batches, each with a poll after it. The trace begins anew, so
that it shows what this session has done. -/
def typed (s : Sys) (batches : List (List UInt8)) : Sys :=
  batches.foldl typeAndPoll { s with calls := [] }

/-- The commands the session executes, in order. -/
def commands (s : Sys) (batches : List (List UInt8)) : List (List UInt8) :=
  executed (typed s batches).calls

/-- The same system with a fresh TTY and an empty shell line: `tty_init`, attached again to where
it was, and `shell_len` 0. Everything else stays, the sessions and PTYs included. -/
def freshTty (s : Sys) : Sys :=
  { ttyAttachSession (ttyInit s) s.tty.ttySessionId s.tty.ttySessionPty with shell.shellLen := 0 }

/-- A Ctrl-C after `before` interrupts. It may come as a batch of its own, or in the middle of the
last batch: then the shell finds the byte in the chunk that it is reading, between what was typed
before and behind it. A `selftest` in that chunk would take the rest of it from the shell, so the
second form is about sessions that execute none from that batch on. -/
structure Interrupts (start : Sys) (before : List (List UInt8)) : Prop where
  /-- the pending line is discarded -/
  discards : (ttyReceive (typed start before) 0x03).tty.ttyLine = []
  /-- the byte reaches the reader -/
  delivered : (ttyReceive (typed start before) 0x03).readerQueue =
    (typed start before).readerQueue ++ [0x03]
  /-- and nothing typed before has any effect on what comes after -/
  commands : ∀ after, (∀ batch ∈ after, batch.length ≤ 1023) →
    commands start (before ++ [0x03] :: after) =
      commands start before ++ commands (freshTty (typed start (before ++ [[0x03]]))) after
  /-- also in the middle of a batch -/
  inside : ∀ earlier pre post after, before = earlier ++ [pre] →
    (pre ++ 0x03 :: post).length ≤ 1023 → (∀ batch ∈ after, batch.length ≤ 1023) →
    (∀ line ∈ WaluOs.commands (typed start earlier) ((pre ++ 0x03 :: post) :: after),
      ¬IsSelftest line) →
    WaluOs.commands start (earlier ++ (pre ++ 0x03 :: post) :: after) =
      WaluOs.commands start before ++
        WaluOs.commands (freshTty (typed start (before ++ [[0x03]]))) (post :: after)

/-- `s'` comes after `s`, and the shell has dropped its line without executing it. -/
structure LineDropped (s s' : Sys) : Prop where
  /-- the TTY goes by the same -/
  discipline : s'.discipline = s.discipline
  /-- the line of the shell -/
  line : s'.shell.line = []
  /-- no command was executed -/
  executed : executed s'.calls = executed s.calls

/-- A queue of one byte is read as one chunk. -/
theorem ReadsChunk.one {chunk : List UInt8} {c : UInt8} (h : ReadsChunk keys s s' chunk)
    (hqueue : s.readerQueue = [c]) : chunk = [c] ∧ s'.readerQueue = [] := by
  have hsplit := hqueue.symm.trans h.queue
  cases chunk with
  | nil => exact absurd (hqueue.symm.trans (h.nonempty rfl)) (List.cons_ne_nil _ _)
  | cons d ds =>
    obtain ⟨rfl, hnil⟩ := List.cons.inj hsplit
    obtain ⟨rfl, hrest⟩ := List.append_eq_nil_iff.mp hnil.symm
    exact ⟨rfl, hrest⟩

/-- An empty queue is read as none. -/
theorem ReadsChunk.none {chunk : List UInt8} (h : ReadsChunk keys s s' chunk)
    (hqueue : s.readerQueue = []) : chunk = [] :=
  (List.append_eq_nil_iff.mp (h.queue.symm.trans hqueue)).1

theorem shellByte_interrupt (s : Sys) :
    shellByte s 0x03 = shellPrompt { s with shell.shellLen := 0 } := by
  rw [shellByte, if_pos rfl]

/-- The shell reads an interrupt from its PTY. -/
theorem shellPtyLoop_interrupt {i : ℕ} (fuel : ℕ) (h : Live keys s)
    (hactive : sessionActivePty s.sessions = i) (hqueue : s.readerQueue = [0x03]) :
    LineDropped s (shellPtyLoop i (fuel + 2) s) := by
  have hread := ptySlaveRead_reads h hactive
  obtain ⟨hchunk, hnil⟩ := hread.one hqueue
  rw [shellPtyLoop, hchunk, if_neg (List.cons_ne_nil _ _ ∘ List.length_eq_zero_iff.mp),
    List.foldl_cons, List.foldl_nil, shellByte_interrupt]
  set u : Sys := shellPrompt { s with
    ptys := (ptySlaveRead s.ptys i true 128).1, shell.shellLen := 0 } with hu
  have hquiet : Quiet keys { s with ptys := (ptySlaveRead s.ptys i true 128).1 } u :=
    hread.live.shell rfl rfl rfl rfl (Nat.zero_lt_succ _)
  have hagain := ptySlaveRead_reads hquiet.live hactive
  have hempty := hagain.none (hquiet.queue.trans hnil)
  rw [shellPtyLoop, hempty, if_pos List.length_nil]
  refine ⟨rfl, rfl, ?_⟩
  exact (executed_append _ _).trans (List.append_nil _)

/-- The shell reads an interrupt from the TTY. -/
theorem shellTtyLoop_interrupt (fuel : ℕ) (h : Live keys s)
    (hactive : sessionActivePty s.sessions < 0) (hqueue : s.readerQueue = [0x03]) :
    LineDropped s (shellTtyLoop (fuel + 2) s) := by
  have hread := ttyPopChar_reads h hactive
  have heq := ttyPopChar_eq s
  obtain ⟨hchar, hnil⟩ := hread.one hqueue
  rw [shellTtyLoop]
  generalize ttyPopChar s = r at hread heq hchar hnil ⊢
  obtain ⟨v, _ | c⟩ := r
  · cases hchar
  obtain rfl := (List.cons.inj hchar).1
  dsimp only at hread heq hnil ⊢
  rw [shellByte_interrupt]
  have hquiet : Quiet keys v (shellPrompt { v with shell.shellLen := 0 }) :=
    hread.live.shell rfl rfl rfl rfl (Nat.zero_lt_succ _)
  have hagain := ttyPopChar_reads hquiet.live
    (show sessionActivePty v.sessions < 0 from
      (congrArg sessionActivePty hread.sessions).trans_lt hactive)
  have hempty := hagain.none (hquiet.queue.trans hnil)
  have heq' := ttyPopChar_eq (shellPrompt { v with shell.shellLen := 0 })
  rw [shellTtyLoop]
  generalize ttyPopChar (shellPrompt { v with shell.shellLen := 0 }) = r at hempty heq' ⊢
  obtain ⟨w, _ | c⟩ := r
  · dsimp only at heq' ⊢
    -- The second read finds nothing.
    rw [heq', heq]
    refine ⟨rfl, rfl, ?_⟩
    exact (executed_append _ _).trans (List.append_nil _)
  · cases hempty

/-- One key, through the receive loop. -/
theorem ttyPollLoop_one (fuel : ℕ) {byte : UInt8} (h : Live [byte] s) :
    ∃ k, Live [] (ttyReceive { s with kbd := k } byte) ∧
      ttyPollLoop (fuel + 2) s = ttyReceive { s with kbd := k } byte := by
  obtain ⟨k, hpop, hk⟩ := keyboardPopChar_some h.kbd
  have hlive := (h.setKbd hk).receive byte
  refine ⟨k, hlive, ?_⟩
  rw [ttyPollLoop, hpop]
  dsimp only
  rw [ttyPollLoop, keyboardPopChar_none hlive.kbd]

/-- **A poll after Ctrl-C**, when the filter is idle: nothing is left of either line. -/
theorem typeAndPoll_interrupt (h : Settled s) (hidle : s.tty.ttyEscapeState = 0) :
    (typeAndPoll s [0x03]).discipline = ⟨0, []⟩ ∧ (typeAndPoll s [0x03]).shell.line = [] ∧
      executed (typeAndPoll s [0x03]).calls = executed s.calls := by
  have htyped : Live [0x03] _ := h.typed (by decide)
  obtain ⟨k, hlive, hloop⟩ := ttyPollLoop_one 1022 htyped
  set u : Sys := { s with kbd := k } with hu
  have hpoll : ttyPollInput { s with kbd := kbdEmitSequence s.kbd [0x03] } = ttyReceive u 0x03 :=
    hloop
  have hr := ttyReceive_received (s := u) ⟨h.live.reader.ptys, h.live.reader.ring⟩
    h.live.canonical 0x03
  have hframe := ttyReceive_frame u 0x03
  have hd : u.discipline = ⟨0, s.tty.ttyLine⟩ := by
    rw [hu, Sys.discipline, ← hidle]
  have hqueue : u.readerQueue = [] := h.queue
  -- A settled queue is empty, and has room for the byte.
  have hroom : u.readerRoom = 2047 := by rw [Sys.readerRoom, hqueue]; rfl
  rw [hd] at hr
  have hdelivered : (ttyReceive u 0x03).readerQueue = [0x03] := by
    rw [hr.pushes.queue, hqueue, hroom]
    rfl
  have hdropped : LineDropped (ttyReceive u 0x03) (typeAndPoll s [0x03]) := by
    rw [typeAndPoll, shellPoll, hpoll]
    split
    · rename_i hpty
      obtain ⟨i, hi⟩ := Int.eq_ofNat_of_zero_le hpty
      rw [hi]
      exact shellPtyLoop_interrupt 4194302 hlive hi hdelivered
    · rename_i hpty
      exact shellTtyLoop_interrupt 4194302 hlive (not_le.mp hpty) hdelivered
  refine ⟨hdropped.discipline.trans hr.discipline, hdropped.line, ?_⟩
  exact hdropped.executed.trans hframe.executed

/-- An open escape sequence delivers nothing. -/
theorem Discipline.step_open {d : Discipline} (h : d.escape ≠ 0) (byte : UInt8) :
    (d.step byte).2 = [] := by
  have hdiscards : (escapeStep d.escape byte).2 = true := by
    by_contra hpasses
    exact h (escapeStep_idle hpasses)
  rw [Discipline.step, if_pos hdiscards]

/-- The session from here on, with no commands before. -/
theorem Settled.start (h : Settled s) : Settled { s with calls := [] } := by
  have hlive : Quiet [] s { s with calls := [] } := h.live.shell rfl rfl rfl rfl h.live.shellLen
  exact ⟨hlive.live, h.queue⟩

theorem Settled.typedStart (h : Settled s) {batches : List (List UInt8)}
    (hlen : ∀ batch ∈ batches, batch.length ≤ 1023) : Settled (WaluOs.typed s batches) :=
  typeAndPolls_settled h.start hlen

/-- A fresh TTY is settled like the one it replaces. -/
theorem Settled.freshTty (h : Settled s) : Settled (freshTty s) := by
  have hring : (WaluOs.freshTty s).tty.ttyReadQueue.InRange ttyReadQueueSize :=
    SlotRing.inRange_zero (by decide) _
  have hreader : ReaderOk (WaluOs.freshTty s) := ⟨h.live.reader.ptys, hring⟩
  have htty : TtyOk (WaluOs.freshTty s) := ⟨hreader, Nat.zero_lt_succ _, List.not_mem_nil⟩
  cases h.live.wired with
  | pty i hpty hvalid hactive =>
    refine ⟨⟨htty, rfl, .pty i hpty hvalid hactive, h.live.kbd, Nat.zero_lt_succ _⟩, ?_⟩
    rw [Live.readerQueue_pty (s := WaluOs.freshTty s) hpty hvalid]
    exact (Live.readerQueue_pty hpty hvalid).symm.trans h.queue
  | ring hpty hactive =>
    refine ⟨⟨htty, rfl, .ring hpty hactive, h.live.kbd, Nat.zero_lt_succ _⟩, ?_⟩
    rw [Live.readerQueue_none (s := WaluOs.freshTty s) hpty]
    exact SlotRing.contents_zero _ _

/-- With nothing left of either line, a TTY is as good as a fresh one. -/
theorem alike_freshTty (h : Settled s) (hd : s.discipline = ⟨0, []⟩) (hline : s.shell.line = []) :
    Alike (executed s.calls) [] s { freshTty s with calls := [] } := by
  refine ⟨rfl, h.queue.trans h.freshTty.queue.symm, rfl, hd, rfl, hline, [], ?_, rfl⟩
  rw [List.append_nil]

/-- What the interrupt does to the TTY, for either state of the filter. -/
theorem ttyReceive_interrupt (h : Settled s) :
    (ttyReceive s 0x03).discipline = (s.discipline.step 0x03).1 ∧
      (ttyReceive s 0x03).readerQueue = (s.discipline.step 0x03).2.take 2047 := by
  have hr := ttyReceive_received h.live.reader h.live.canonical 0x03
  have hroom : s.readerRoom = 2047 := by
    rw [Sys.readerRoom, h.queue]
    rfl
  refine ⟨hr.discipline, ?_⟩
  rw [hr.pushes.queue, h.queue, hroom, List.nil_append]

/-- Nothing interrupts inside an escape sequence. -/
theorem not_interrupts {start : Sys} (h : Settled start) {before : List (List UInt8)}
    (hlen : ∀ batch ∈ before, batch.length ≤ 1023)
    (hopen : (typed start before).tty.ttyEscapeState ≠ 0) : ¬Interrupts start before := by
  intro hint
  have hs := h.typedStart hlen
  have hdelivered := hint.delivered
  rw [(ttyReceive_interrupt hs).2, Discipline.step_open hopen, hs.queue] at hdelivered
  cases hdelivered

/-! ### Inside a batch -/

/-- A session that goes on is one that starts where the first part has ended. -/
theorem typed_append (h : Settled s) {before after : List (List UInt8)}
    (hbefore : ∀ batch ∈ before, batch.length ≤ 1023)
    (hafter : ∀ batch ∈ after, batch.length ≤ 1023) :
    Alike (commands s before) [] (typed s (before ++ after)) (typed (typed s before) after) := by
  have hmid := h.typedStart hbefore
  have halike : Alike (commands s before) [] (typed s before) { typed s before with calls := [] } :=
    ⟨rfl, rfl, rfl, rfl, rfl, rfl, [], (List.append_nil _).symm, rfl⟩
  rw [typed, List.foldl_append]
  exact halike.typeAndPolls after hmid hmid.start hafter

theorem Alike.commands_eq (h : Alike bs [] s t) :
    WaluOs.executed s.calls = bs ++ WaluOs.executed t.calls := by
  obtain ⟨xs, hxs, hxt⟩ := h.executed
  rw [hxs, hxt, List.nil_append]

/-- The commands of a session without `selftest` are those of the two machines. -/
theorem commands_eq (h : Settled s) {batches : List (List UInt8)}
    (hlen : ∀ batch ∈ batches, batch.length ≤ 1023)
    (hself : (∀ line ∈ commands s batches, ¬IsSelftest line) ∨
      Harmless s (s.discipline.feed batches.flatten).2) :
    (typed s batches).discipline = (s.discipline.feed batches.flatten).1 ∧
      commands s batches =
        commandsOf (Mealy.run shellStep s.shell (s.discipline.feed batches.flatten).2).2 := by
  rcases typeAndPolls_reads h.start batches hlen with
    hreads | ⟨⟨xs, hxs, line, hline, htest⟩, hharm⟩
  · exact ⟨hreads.discipline, hreads.executed⟩
  · have hcommands : commands s batches = xs := hxs
    rcases hself with hself | hself
    · exact absurd htest (hself line (hcommands ▸ hline))
    · exact absurd hself hharm

/-- A shell with no line executes the same of a stream whatever is in its buffer. -/
theorem commandsOf_fresh {sh : Shell} (h : sh.shellLen = 0) (shellLine : ℕ → UInt8)
    (out : List UInt8) :
    commandsOf (Mealy.run shellStep sh out).2 =
      commandsOf (Mealy.run shellStep ⟨shellLine, 0⟩ out).2 := by
  have hempty : ∀ {sh : Shell}, sh.shellLen = 0 → Holds sh [] := by
    intro sh h
    rw [Holds, Shell.line, h]
    rfl
  exact (run_holds out (hempty h)).trans (run_holds out (hempty rfl)).symm

/-- What Ctrl-C does to the two machines: their lines are gone. -/
theorem feed_interrupt {d : Discipline} {pre : List UInt8} (hidle : (d.feed pre).1.escape = 0)
    (rest : List UInt8) :
    (d.feed (pre ++ 0x03 :: rest)).2 =
      (d.feed pre).2 ++ 0x03 :: (Discipline.feed ⟨0, []⟩ rest).2 := by
  have hstep : (d.feed pre).1.step 0x03 = (⟨0, []⟩, [0x03]) := by
    rw [Discipline.step, hidle]
    rfl
  rw [Discipline.feed, Mealy.run_append, Mealy.run_cons, ← Discipline.feed, hstep]
  rfl

theorem commandsOf_interrupt (sh : Shell) (xs ys : List UInt8) :
    commandsOf (Mealy.run shellStep sh (xs ++ 0x03 :: ys)).2 =
      commandsOf (Mealy.run shellStep sh xs).2 ++
        commandsOf (Mealy.run shellStep ⟨(Mealy.run shellStep sh xs).1.shellLine, 0⟩ ys).2 := by
  rw [Mealy.run_append, Mealy.run_cons, commandsOf_append, commandsOf_append]
  rfl

/-- **Ctrl-C inside a batch**, and the session of which it is the first one. -/
theorem commands_interrupt (h : Settled s) (h' : Settled t) {pre post : List UInt8}
    {after : List (List UInt8)} (hlen : (pre ++ 0x03 :: post).length ≤ 1023)
    (hafter : ∀ batch ∈ after, batch.length ≤ 1023)
    (hself : ∀ line ∈ commands s ((pre ++ 0x03 :: post) :: after), ¬IsSelftest line)
    (hidle : (typed s [pre]).tty.ttyEscapeState = 0) (hd : t.discipline = ⟨0, []⟩)
    (hempty : t.shell.shellLen = 0) :
    commands s ((pre ++ 0x03 :: post) :: after) =
      commands s [pre] ++ commands t (post :: after) := by
  have hbatch : ∀ batch ∈ (pre ++ 0x03 :: post) :: after, batch.length ≤ 1023 :=
    List.forall_mem_cons.mpr ⟨hlen, hafter⟩
  rw [List.length_append, List.length_cons] at hlen
  have hflatten : ((pre ++ 0x03 :: post) :: after).flatten =
      pre ++ 0x03 :: (post :: after).flatten := by
    rw [List.flatten_cons, List.flatten_cons, List.append_assoc, List.cons_append]
  have hwhole := (commands_eq h hbatch (Or.inl hself)).2
  rw [hflatten] at hwhole
  have hharmless : Harmless s (s.discipline.feed (pre ++ 0x03 :: (post :: after).flatten)).2 := by
    rwa [hwhole] at hself
  -- What comes before the byte is a session of its own.
  have hpre : Harmless s (s.discipline.feed [pre].flatten).2 := by
    rw [Discipline.feed, Mealy.run_append] at hharmless
    rw [List.flatten_singleton]
    exact hharmless.left
  obtain ⟨hmid, hfirst⟩ := commands_eq h (List.forall_mem_singleton.mpr (by omega)) (Or.inr hpre)
  rw [List.flatten_singleton] at hmid hfirst
  have hstate : (s.discipline.feed pre).1.escape = 0 := hmid ▸ hidle
  rw [feed_interrupt hstate, commandsOf_interrupt, ← commandsOf_fresh hempty] at hwhole
  -- So is what comes behind it.
  have hpost : Harmless t (t.discipline.feed (post :: after).flatten).2 := by
    rw [hwhole] at hself
    rw [hd]
    exact (List.forall_mem_append.mp hself).2
  obtain ⟨-, hlast⟩ := commands_eq h' (List.forall_mem_cons.mpr ⟨by omega, hafter⟩) (Or.inr hpost)
  rw [hwhole, hfirst, hlast, hd]

/-- **Ctrl-C interrupts** exactly when it does not fall into an escape sequence: whatever
has been typed, in whatever batches, it discards the line, reaches the reader, and makes
the shell execute what follows as on a fresh TTY. -/
theorem interrupts_iff {start : Sys} (h : Settled start) (before : List (List UInt8))
    (hlen : ∀ batch ∈ before, batch.length ≤ 1023) :
    Interrupts start before ↔ (typed start before).tty.ttyEscapeState = 0 := by
  have hs := h.typedStart hlen
  constructor
  · intro hint
    by_contra hopen
    exact not_interrupts h hlen hopen hint
  · intro hidle
    have hd : (typed start before).discipline = ⟨0, (typed start before).tty.ttyLine⟩ := by
      rw [Sys.discipline, hidle]
    obtain ⟨hdiscipline, hqueue⟩ := ttyReceive_interrupt hs
    rw [hd] at hdiscipline hqueue
    have hboth : typed start (before ++ [[0x03]]) = typeAndPoll (typed start before) [0x03] := by
      rw [typed, List.foldl_append]
      rfl
    obtain ⟨hempty, hline, hexec⟩ := typeAndPoll_interrupt hs hidle
    have hs' : Settled (typeAndPoll (typed start before) [0x03]) :=
      typeAndPoll_settled hs (by decide)
    refine ⟨congrArg Discipline.line hdiscipline, ?_, fun after hafter => ?_, ?_⟩
    · rw [hqueue, hs.queue]
      rfl
    · -- From here on the two runs stay alike.
      have halike := (alike_freshTty hs' hempty hline).typeAndPolls after hs' hs'.freshTty.start
        hafter
      rw [commands, commands, commands, hboth, typed, List.foldl_append, List.foldl_cons]
      exact halike.commands_eq.trans (congrArg (· ++ _) hexec)
    · rintro earlier pre post after rfl hbatch hafter hself
      obtain ⟨hearlier, hpre⟩ := List.forall_mem_append.mp hlen
      have hmid := h.typedStart hearlier
      have hsplit := typed_append h hearlier hpre
      have hwhole := typed_append h hearlier (List.forall_mem_cons.mpr ⟨hbatch, hafter⟩)
      have hstate : (typed (typed start earlier) [pre]).tty.ttyEscapeState = 0 :=
        (congrArg Discipline.escape hsplit.discipline).symm.trans hidle
      have hinside := commands_interrupt hmid hs'.freshTty hbatch hafter hself hstate rfl rfl
      have hall : commands start (earlier ++ (pre ++ 0x03 :: post) :: after) = _ :=
        hwhole.commands_eq
      have hfront : commands start (earlier ++ [pre]) = _ := hsplit.commands_eq
      rw [hall, hfront, hboth, List.append_assoc]
      exact congrArg (commands start earlier ++ ·) hinside

/-- What `kernel_main` sets up has read everything. -/
theorem kernelInput_settled (s : Sys) : Settled (kernelInput s) := by
  have h := kernelInput_atRest s
  have hqueue : (kernelInput s).readerQueue = [] :=
    (Live.readerQueue_pty h.tty.attached h.tty.valid).trans h.tty.sent
  have hline : (kernelInput s).tty.ttyLine = [] := h.tty.line
  have hlen : (kernelInput s).shell.shellLen = 0 := by
    rw [← Shell.length_line, h.shell.line]
    rfl
  refine ⟨⟨⟨⟨h.tty.ptys, ?_⟩, ?_, ?_⟩, h.tty.canonical,
    .pty 0 h.tty.attached h.tty.valid h.session, h.kbd, ?_⟩, hqueue⟩
  · exact SlotRing.inRange_zero (by decide) _
  · rw [hline]
    exact Nat.zero_lt_succ _
  · rw [hline]
    exact List.not_mem_nil
  · rw [hlen]
    exact Nat.zero_lt_succ _

/-- After two letters. -/
theorem interrupts_iff_hx :
    Interrupts (kernelInput sysZero) [text "hx"] ↔
      (typed (kernelInput sysZero) [text "hx"]).tty.ttyEscapeState = 0 :=
  interrupts_iff (kernelInput_settled sysZero) [text "hx"] (by decide)

/-- An `x` and an escape before it: the interrupt is swallowed, and the shell runs
`xhelp`. -/
theorem escape_swallows_interrupt :
    ¬Interrupts (kernelInput sysZero) [[0x78, 0x1B]] ∧
      commands (kernelInput sysZero) [[0x78, 0x1B], [0x03], text "help\n"] = [text "xhelp"] := by
  constructor
  · refine not_interrupts (kernelInput_settled sysZero) (by decide) ?_
    decide +kernel
  · decide +kernel

end WaluOs
