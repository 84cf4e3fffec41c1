import WaluOs.ShellInput

/-!
# Polls that read everything

Between two polls at most 1023 bytes come in, and the queue of the reader has room for these and
for a whole line. So a poll loses nothing: the line discipline reads the batch, and the shell reads
what that delivers, as two machines in a row (`ReadsAll`). Only a `selftest` comes between them,
because it empties the queue that the shell is reading. It is executed if and only if the
machines say so (`typeAndPolls_reads`), so it can be excluded on either side.
-/

namespace WaluOs

variable {keys : List UInt8} {s s' u : Sys}

/-! ## Room -/

/-- A byte adds at most one byte to the line and what is delivered. -/
theorem lineStep_length (line : List UInt8) (byte : UInt8) :
    (lineStep line byte).1.length + (lineStep line byte).2.length ≤ line.length + 1 := by
  have hlast : line.dropLast.length ≤ line.length := List.length_dropLast ▸ Nat.sub_le _ _
  rw [lineStep]
  split_ifs <;>
    simp only [List.length_nil, List.length_singleton, List.length_append] <;> omega

theorem Discipline.step_length (d : Discipline) (byte : UInt8) :
    (d.step byte).1.line.length + (d.step byte).2.length ≤ d.line.length + 1 := by
  rw [Discipline.step]
  split
  · exact Nat.le_succ _
  · exact lineStep_length d.line byte

/-- A TTY with room receives a byte: nothing that it delivers is dropped, and line and queue
together grow by at most one byte. -/
theorem Live.take {byte : UInt8} (h : Live (byte :: keys) s) {k : Kbd} (hk : KbdHolds k keys)
    (hroom : s.readerQueue.length + s.tty.ttyLine.length ≤ 2046) :
    Live keys (ttyReceive { s with kbd := k } byte) ∧
      (ttyReceive { s with kbd := k } byte).discipline = (s.discipline.step byte).1 ∧
      (ttyReceive { s with kbd := k } byte).readerQueue =
        s.readerQueue ++ (s.discipline.step byte).2 ∧
      (ttyReceive { s with kbd := k } byte).readerQueue.length +
          (ttyReceive { s with kbd := k } byte).tty.ttyLine.length ≤
        s.readerQueue.length + s.tty.ttyLine.length + 1 := by
  have hset := h.setKbd hk
  have hr := ttyReceive_received hset.reader hset.canonical byte
  have hlen : (s.discipline.step byte).1.line.length + (s.discipline.step byte).2.length ≤
      s.tty.ttyLine.length + 1 := Discipline.step_length s.discipline byte
  have hqueue : (ttyReceive { s with kbd := k } byte).readerQueue =
      s.readerQueue ++ (s.discipline.step byte).2 := by
    have hfits : (s.discipline.step byte).2.length ≤ 2047 - s.readerQueue.length := by omega
    rw [hr.pushes.queue]
    exact congrArg (s.readerQueue ++ ·) (List.take_of_length_le hfits)
  have hline : (ttyReceive { s with kbd := k } byte).tty.ttyLine =
      (s.discipline.step byte).1.line := congrArg Discipline.line hr.discipline
  refine ⟨hset.receive byte, hr.discipline, hqueue, ?_⟩
  rw [hqueue, hline, List.length_append]
  omega

/-- The receive loop reads all keys, and what they deliver is in the queue of the reader. -/
theorem ttyPollLoop_feeds (fuel : ℕ) :
    ∀ {s : Sys} {keys : List UInt8}, Live keys s → keys.length < fuel →
      s.readerQueue.length + s.tty.ttyLine.length + keys.length ≤ 2047 →
      (ttyPollLoop fuel s).discipline = (s.discipline.feed keys).1 ∧
        (ttyPollLoop fuel s).readerQueue = s.readerQueue ++ (s.discipline.feed keys).2 := by
  induction fuel with
  | zero => exact fun _ hlen => absurd hlen (Nat.not_lt_zero _)
  | succ fuel ih =>
    intro s keys h hlen hroom
    rw [ttyPollLoop]
    cases keys with
    | nil =>
      rw [keyboardPopChar_none h.kbd]
      exact ⟨rfl, (List.append_nil _).symm⟩
    | cons byte keys =>
      rw [List.length_cons] at hlen hroom
      obtain ⟨k, hpop, hk⟩ := keyboardPopChar_some h.kbd
      obtain ⟨hlive, hdiscipline, hqueue, hgrows⟩ := h.take hk (by omega)
      rw [hpop]
      obtain ⟨hlast, hall⟩ := ih hlive (Nat.lt_of_succ_lt_succ hlen) (by omega)
      rw [hdiscipline] at hlast hall
      rw [hqueue] at hall
      rw [Discipline.feed, Mealy.run_cons]
      exact ⟨hlast, hall.trans (List.append_assoc ..)⟩

/-! ## No `selftest` -/

/-- No command among those of a stream is `selftest`. This is said of the machine, so it does
not depend on what becomes of the stream in a run. -/
def Harmless (boot : Sys) (out : List UInt8) : Prop :=
  ∀ line ∈ commandsOf (Mealy.run shellStep boot.shell out).2, ¬IsSelftest line

theorem harmless_append {boot : Sys} {xs ys : List UInt8} :
    Harmless boot (xs ++ ys) ↔ Harmless boot xs ∧
      ∀ line ∈ commandsOf (Mealy.run shellStep (Mealy.run shellStep boot.shell xs).1 ys).2,
        ¬IsSelftest line := by
  rw [Harmless, Mealy.run_append, commandsOf_append]
  exact List.forall_mem_append

theorem Harmless.left {boot : Sys} {xs ys : List UInt8} (h : Harmless boot (xs ++ ys)) :
    Harmless boot xs :=
  (harmless_append.mp h).1

/-- What is left of a stream, for the shell that has read the front of it. -/
theorem Harmless.right {xs ys : List UInt8} (h : Harmless s (xs ++ ys))
    (hshell : u.shell = (Mealy.run shellStep s.shell xs).1) : Harmless u ys := by
  rw [Harmless, hshell]
  exact (harmless_append.mp h).2

/-- The commands of a log are those of its bytes. -/
theorem Logs.noSelftest_iff {log : List Entry} (h : Logs s log s') :
    NoSelftest log ↔ Harmless s (bytesOf log) := by
  rw [NoSelftest, Harmless, h.run]

/-- A byte that executes no `selftest` changes nothing below the shell. -/
theorem shellByte_shellFrame (s : Sys) (c : UInt8) (hself : NoSelftest [(s.shell, c)]) :
    ShellFrame s (shellByte s c) := by
  by_cases hnl : c = 0x0A
  · subst hnl
    have hline : ¬IsSelftest (cString (Function.update s.shell.shellLine s.shell.shellLen 0)) := by
      refine hself _ ?_
      rw [callsOf, List.flatMap_singleton]
      exact List.mem_cons_self
    have hprints := executeCommand_prints (Sys.emit { s with
      shell.shellLine := Function.update s.shell.shellLine s.shell.shellLen 0 }
        [.executeCommand (cString (Function.update s.shell.shellLine s.shell.shellLen 0))]) hline
    exact ⟨hprints.frame.kbd, hprints.ptys, hprints.frame.sessions, hprints.tty⟩
  · rw [shellByte, if_neg hnl]
    split_ifs
    · exact ⟨rfl, rfl, rfl, rfl⟩
    · dsimp only
      split_ifs <;> exact ⟨rfl, rfl, rfl, rfl⟩
    · exact .refl s
    · exact .refl s
    · exact ⟨rfl, rfl, rfl, rfl⟩
    · exact .refl s

/-- The queue of the reader stays with the TTY and the PTYs. -/
theorem ShellFrame.readerQueue {s s' : Sys} (h : ShellFrame s s') :
    s'.readerQueue = s.readerQueue := by
  have hatt : s'.attached = s.attached := by rw [Sys.attached, Sys.attached, h.tty, h.ptys]
  rw [Sys.readerQueue, Sys.readerQueue, hatt, h.tty, h.ptys]

theorem ShellFrame.discipline (h : ShellFrame s s') : s'.discipline = s.discipline := by
  rw [Sys.discipline, Sys.discipline, h.tty]

theorem bytesOf_chunkLog (bytes : List UInt8) : ∀ s : Sys, bytesOf (chunkLog s bytes) = bytes := by
  induction bytes with
  | nil => exact fun _ => rfl
  | cons c bytes ih => exact fun s => congrArg (c :: ·) (ih (shellByte s c))

/-- Neither does a chunk. -/
theorem shellBytes_shellFrame (bytes : List UInt8) :
    ∀ {s : Sys}, NoSelftest (chunkLog s bytes) → ShellFrame s (bytes.foldl shellByte s) := by
  induction bytes with
  | nil => exact fun _ => .refl _
  | cons c bytes ih =>
    intro s h
    have hsplit : NoSelftest ([(s.shell, c)] ++ chunkLog (shellByte s c) bytes) := h
    obtain ⟨hone, hrest⟩ := noSelftest_append.mp hsplit
    exact (shellByte_shellFrame s c hone).trans (ih hrest)

/-! ## The loops of the shell -/

/-- The loop has read the whole queue and left the TTY where it was, unless a `selftest` came up;
and then there is one in the queue. -/
def ReadsOut (s : Sys) (log : List Entry) (s' : Sys) : Prop :=
  (bytesOf log = s.readerQueue ∧ s'.discipline = s.discipline) ∨
    (¬NoSelftest log ∧ ¬Harmless s s.readerQueue)

/-- One read, and the rest of the loop. -/
theorem ReadsOut.chunk {chunk : List UInt8} {log : List Entry} (hread : ReadsChunk keys s u chunk)
    (hdiscipline : u.discipline = s.discipline) (hshell : u.shell = s.shell)
    (hrest : ReadsOut (chunk.foldl shellByte u) log s') :
    ReadsOut s (chunkLog u chunk ++ log) s' := by
  have hlogs := logs_rule.chunk chunk u
  have hself := hlogs.noSelftest_iff
  rw [bytesOf_chunkLog, Harmless, hshell] at hself
  rw [ReadsOut, noSelftest_append, hread.queue]
  by_cases hchunk : NoSelftest (chunkLog u chunk)
  · have hframe := shellBytes_shellFrame chunk hchunk
    have hafter : (chunk.foldl shellByte u).shell = (Mealy.run shellStep s.shell chunk).1 := by
      have hrun := hlogs.run
      rw [bytesOf_chunkLog, hshell] at hrun
      rw [hrun]
    rcases hrest with ⟨hbytes, hlast⟩ | ⟨htest, hharm⟩
    · refine Or.inl ⟨?_, hlast.trans (hframe.discipline.trans hdiscipline)⟩
      rw [bytesOf, List.map_append, ← bytesOf, ← bytesOf, bytesOf_chunkLog, hbytes,
        hframe.readerQueue]
    · rw [hframe.readerQueue] at hharm
      exact Or.inr ⟨fun h => htest h.2, fun h => hharm (h.right hafter)⟩
  · exact Or.inr ⟨fun h => hchunk h.1, fun h => hchunk (hself.mpr h.left)⟩

/-- Nothing is left to read. -/
theorem ReadsOut.done (hread : ReadsChunk keys s u []) (hdiscipline : u.discipline = s.discipline) :
    ReadsOut s [] u :=
  Or.inl ⟨(hread.nonempty rfl).symm, hdiscipline⟩

/-- The PTY loop. -/
theorem ptyLoopLog_reads {i : ℕ} (fuel : ℕ) :
    ∀ {s : Sys}, Live keys s → sessionActivePty s.sessions = i →
      readerWork s.readerQueue < fuel →
      ReadsOut s (ptyLoopLog i fuel s) (shellPtyLoop i fuel s) := by
  induction fuel with
  | zero => exact fun _ _ hwork => absurd hwork (Nat.not_lt_zero _)
  | succ fuel ih =>
    intro s h hactive hwork
    have hread := ptySlaveRead_reads h hactive
    rw [ptyLoopLog, shellPtyLoop]
    split
    · rename_i hnil
      rw [List.length_eq_zero_iff.mp hnil] at hread
      exact .done hread rfl
    · rename_i hne
      have hone := hread.continues
      have hless := hread.work (mt List.length_eq_zero_iff.mpr hne)
      exact .chunk hread rfl rfl (ih hone.live
        ((congrArg sessionActivePty hone.sessions).trans hactive)
        (Nat.lt_of_lt_of_le hless (Nat.le_of_lt_succ hwork)))

theorem ttyPopChar_discipline (s : Sys) : (ttyPopChar s).1.discipline = s.discipline := by
  rw [ttyPopChar]
  dsimp only
  split_ifs <;> rfl

/-- The TTY loop. -/
theorem ttyLoopLog_reads (fuel : ℕ) :
    ∀ {s : Sys}, Live keys s → sessionActivePty s.sessions < 0 →
      readerWork s.readerQueue < fuel → ReadsOut s (ttyLoopLog fuel s) (shellTtyLoop fuel s) := by
  induction fuel with
  | zero => exact fun _ _ hwork => absurd hwork (Nat.not_lt_zero _)
  | succ fuel ih =>
    intro s h hactive hwork
    have hread := ttyPopChar_reads h hactive
    have hdiscipline := ttyPopChar_discipline s
    have hshell := (ttyPopChar_shell s).1
    rw [ttyLoopLog, shellTtyLoop]
    generalize ttyPopChar s = r at hread hdiscipline hshell ⊢
    obtain ⟨u, _ | c⟩ := r
    · exact .done hread hdiscipline
    · have hone := hread.continues
      have hless := hread.work (List.cons_ne_nil c [])
      exact .chunk hread hdiscipline hshell (ih hone.live
        ((congrArg sessionActivePty hone.sessions).trans_lt hactive)
        (Nat.lt_of_lt_of_le hless (Nat.le_of_lt_succ hwork)))

/-- What a poll reads, once the TTY has had its input. -/
theorem pollLog_reads (h : Live keys s) (hlen : keys.length < kbdByteQueueSize) :
    ReadsOut (ttyPollInput s) (pollLog s) (shellPoll s) := by
  have hlive : Live [] (ttyPollInput s) := ttyPollLoop_live kbdByteQueueSize h hlen
  rw [pollLog, shellPoll]
  by_cases hactive : 0 ≤ sessionActivePty (ttyPollInput s).sessions
  · obtain ⟨i, hi⟩ := Int.eq_ofNat_of_zero_le hactive
    rw [if_pos hactive, if_pos hactive, hi]
    exact ptyLoopLog_reads shellFuel hlive hi hlive.work_lt
  · rw [if_neg hactive, if_neg hactive]
    exact ttyLoopLog_reads shellFuel hlive (not_le.mp hactive) hlive.work_lt

/-! ## Polls -/

/-- `s'` comes after `s`, and in between the line discipline has read `bytes`, and the shell what
it has delivered of them. Nothing else of `s` counts: what was executed is a function of the two
machines and the bytes. -/
structure ReadsAll (s : Sys) (bytes : List UInt8) (s' : Sys) : Prop where
  /-- the line discipline -/
  discipline : s'.discipline = (s.discipline.feed bytes).1
  /-- the shell -/
  shell : s'.shell = (Mealy.run shellStep s.shell (s.discipline.feed bytes).2).1
  /-- the commands -/
  executed : executed s'.calls = executed s.calls ++
    commandsOf (Mealy.run shellStep s.shell (s.discipline.feed bytes).2).2

theorem ReadsAll.trans {xs ys : List UInt8} (h : ReadsAll s xs u) (h' : ReadsAll u ys s') :
    ReadsAll s (xs ++ ys) s' := by
  have hfeed : s.discipline.feed (xs ++ ys) =
      ((u.discipline.feed ys).1, (s.discipline.feed xs).2 ++ (u.discipline.feed ys).2) := by
    rw [Discipline.feed, Mealy.run_append, h.discipline]
  refine ⟨?_, ?_, ?_⟩
  · rw [hfeed]
    exact h'.discipline
  · rw [hfeed, Mealy.run_append, ← h.shell]
    exact h'.shell
  · rw [hfeed, Mealy.run_append, ← h.shell, commandsOf_append, ← List.append_assoc, ← h.executed]
    exact h'.executed

/-- One of the commands that `s'` has executed since `s` is `selftest`. -/
def Selftests (s s' : Sys) : Prop :=
  ∃ xs, executed s'.calls = executed s.calls ++ xs ∧ ∃ line ∈ xs, IsSelftest line

theorem Selftests.earlier {xs : List (List UInt8)} (h : Selftests u s')
    (hexecuted : executed u.calls = executed s.calls ++ xs) : Selftests s s' := by
  obtain ⟨ys, hys, line, hline, hself⟩ := h
  refine ⟨xs ++ ys, ?_, line, List.mem_append_right _ hline, hself⟩
  rw [hys, hexecuted, List.append_assoc]

theorem Selftests.later {ys : List (List UInt8)} (h : Selftests s u)
    (hexecuted : executed s'.calls = executed u.calls ++ ys) : Selftests s s' := by
  obtain ⟨xs, hxs, line, hline, hself⟩ := h
  refine ⟨xs ++ ys, ?_, line, List.mem_append_left _ hline, hself⟩
  rw [hexecuted, hxs, List.append_assoc]

theorem typeAndPoll_logs (s : Sys) (batch : List UInt8) :
    Logs s (pollLog (withKeys s batch)) (typeAndPoll s batch) := by
  have hpoll := pollLog_logs (withKeys s batch)
  exact ⟨hpoll.run, hpoll.executed⟩

/-- **A poll** reads all that was typed, unless a `selftest` comes up; and then one was typed. -/
theorem typeAndPoll_reads (h : Settled s) {batch : List UInt8} (hlen : batch.length ≤ 1023) :
    ReadsAll s batch (typeAndPoll s batch) ∨
      Selftests s (typeAndPoll s batch) ∧ ¬Harmless s (s.discipline.feed batch).2 := by
  have htyped := h.typed hlen
  have hline : s.tty.ttyLine.length < 512 := h.live.tty.line_lt
  have hempty : (withKeys s batch).readerQueue = [] := h.queue
  obtain ⟨hdiscipline, hqueue⟩ := ttyPollLoop_feeds kbdByteQueueSize htyped
    (Nat.lt_succ_of_le hlen) (by
      change (withKeys s batch).readerQueue.length + s.tty.ttyLine.length + batch.length ≤ 2047
      rw [hempty, List.length_nil]
      omega)
  have hreads : ReadsOut (ttyPollInput (withKeys s batch)) (pollLog (withKeys s batch))
      (typeAndPoll s batch) := pollLog_reads htyped (Nat.lt_succ_of_le hlen)
  have hlogs : Logs s (pollLog (withKeys s batch)) (typeAndPoll s batch) :=
    typeAndPoll_logs s batch
  have hshell : (ttyPollInput (withKeys s batch)).shell = s.shell :=
    (ttyPollLoop_frame kbdByteQueueSize (withKeys s batch)).1
  have hout : (ttyPollInput (withKeys s batch)).readerQueue = (s.discipline.feed batch).2 := by
    refine hqueue.trans ?_
    change (withKeys s batch).readerQueue ++ _ = _
    rw [hempty]
    rfl
  rw [ReadsOut, hout] at hreads
  rcases hreads with ⟨hbytes, hlast⟩ | ⟨htest, hharm⟩
  · have hrun := hlogs.run
    rw [hbytes] at hrun
    refine Or.inl ⟨hlast.trans hdiscipline, ?_, ?_⟩
    · rw [hrun]
    · rw [hrun]
      exact hlogs.executed
  · refine Or.inr ⟨⟨_, hlogs.executed, ?_⟩, fun hall => hharm ?_⟩
    · by_contra hnone
      exact htest fun line hline hself => hnone ⟨line, hline, hself⟩
    · rw [Harmless, hshell]
      exact hall

/-- **A session** of polls reads all that was typed, in whatever batches, unless a `selftest` comes
up; and then one was typed. -/
theorem typeAndPolls_reads (h : Settled s) (batches : List (List UInt8)) :
    (∀ batch ∈ batches, batch.length ≤ 1023) →
      ReadsAll s batches.flatten (batches.foldl typeAndPoll s) ∨
        Selftests s (batches.foldl typeAndPoll s) ∧
          ¬Harmless s (s.discipline.feed batches.flatten).2 := by
  induction batches using List.reverseRecOn with
  | nil =>
    exact fun _ => Or.inl ⟨rfl, rfl, (List.append_nil _).symm⟩
  | append_singleton batches batch ih =>
    intro hlen
    obtain ⟨hbatches, hbatch⟩ := List.forall_mem_append.mp hlen
    have hlast := List.forall_mem_singleton.mp hbatch
    have hmid := typeAndPolls_settled h hbatches
    have hlogs := typeAndPoll_logs (batches.foldl typeAndPoll s) batch
    rw [List.foldl_append, List.foldl_cons, List.foldl_nil, List.flatten_append,
      List.flatten_singleton, Discipline.feed, Mealy.run_append, ← Discipline.feed,
      ← Discipline.feed]
    rcases ih hbatches with hreads | ⟨htest, hharm⟩
    · have hone := typeAndPoll_reads hmid hlast
      rw [hreads.discipline] at hone
      rcases hone with hone | ⟨htest, hharm⟩
      · exact Or.inl (hreads.trans hone)
      · exact Or.inr ⟨htest.earlier hreads.executed, fun h => hharm (h.right hreads.shell)⟩
    · exact Or.inr ⟨htest.later hlogs.executed, fun h => hharm h.left⟩

end WaluOs
