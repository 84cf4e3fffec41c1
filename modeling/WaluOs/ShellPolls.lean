import WaluOs.ShellTyping
import WaluOs.TtyRuns

/-!
# A poll reads everything

`shell_poll` reads until there is nothing left to read. What it reads may be the
`selftest` command, which types bytes of its own into the TTY, so that the queue it is
emptying grows meanwhile; but the line that `selftest` types is longer than the line
buffer, and its newline is lost with the rest. So every command uses up a newline and
none brings a new one, and the loops of `shell_poll` come to an end with the reader's
queue empty (`shellPoll_settled`), whichever of the two queues the shell reads.
-/

namespace WaluOs

/-! ## The line of `selftest` -/

/-- A letter, when the filter is idle. -/
theorem Discipline.step_fill {d : Discipline} (h : d.escape = 0) :
    d.step 0x78 =
      (⟨0, if d.line.length + 1 < ttyLineBufferSize then d.line ++ [0x78] else d.line⟩, []) := by
  have hline : lineStep d.line 0x78 =
      (if d.line.length + 1 < ttyLineBufferSize then d.line ++ [0x78] else d.line, []) := by
    rw [lineStep, if_neg (by decide), if_neg (by decide), if_neg (by decide), if_neg (by decide),
      if_neg (by decide)]
    by_cases hfull : d.line.length + 1 < ttyLineBufferSize
    · rw [if_pos ⟨by decide, hfull⟩, if_pos hfull]
    · rw [if_neg fun hc => hfull hc.2, if_neg hfull]
  rw [Discipline.step, h, hline]
  rfl

/-- Letters fill the line buffer up to its last place. -/
theorem Discipline.feed_fill (n : ℕ) :
    ∀ {d : Discipline}, d.escape = 0 → d.line.length < ttyLineBufferSize →
      (d.feed (List.replicate n 0x78)).1.escape = 0 ∧
        (d.feed (List.replicate n 0x78)).1.line.length = min 511 (d.line.length + n) ∧
        (d.feed (List.replicate n 0x78)).2 = [] := by
  induction n with
  | zero =>
    intro d h hlen
    exact ⟨h, (Nat.min_eq_right (Nat.le_of_lt_succ hlen)).symm, rfl⟩
  | succ n ih =>
    intro d h hlen
    have hstep := Discipline.step_fill h
    rw [List.replicate_succ, Discipline.feed, Mealy.run_cons, hstep]
    by_cases hfull : d.line.length + 1 < ttyLineBufferSize
    · rw [if_pos hfull]
      obtain ⟨he, hl, ho⟩ := ih (d := ⟨0, d.line ++ [0x78]⟩) rfl (by
        rw [List.length_append, List.length_singleton]
        exact hfull)
      refine ⟨he, hl.trans ?_, ho⟩
      rw [List.length_append, List.length_singleton]
      omega
    · rw [if_neg hfull]
      obtain ⟨he, hl, ho⟩ := ih (d := ⟨0, d.line⟩) rfl hlen
      refine ⟨he, hl.trans ?_, ho⟩
      change min 511 (d.line.length + n) = _
      have hlong : 511 ≤ d.line.length := Nat.le_of_not_lt fun hc => hfull (Nat.succ_lt_succ hc)
      omega

/-- A line that fills the buffer delivers no newline. -/
theorem Discipline.feed_full {d : Discipline} (h : d.Ok) (hescape : d.escape = 0) {n : ℕ}
    (hn : 511 ≤ n) : 0x0A ∉ (d.feed (List.replicate n 0x78 ++ [0x0A])).2 := by
  obtain ⟨he, hl, ho⟩ := Discipline.feed_fill n hescape h.line_lt
  have hok : (d.feed (List.replicate n 0x78)).1.Ok :=
    Mealy.run_keeps (P := Discipline.Ok) (fun _ b hd => Discipline.step_ok hd b) h _
  have hlen : (d.feed (List.replicate n 0x78)).1.line.length = 511 :=
    hl.trans (Nat.min_eq_left (hn.trans (Nat.le_add_left _ _)))
  rw [Discipline.feed, Mealy.run_append, ho, Mealy.run_singleton, Discipline.step_newline he, hlen,
    if_neg (by decide)]
  exact hok.noNewline

/-- A line of letters that is longer than the buffer delivers no newline, wherever it
starts. -/
theorem Discipline.feed_letters {d : Discipline} (h : d.Ok) {n : ℕ} (hn : 512 ≤ n) :
    0x0A ∉ (d.feed (List.replicate n 0x78 ++ [0x0A])).2 := by
  obtain ⟨escape, line⟩ := d
  obtain ⟨m, rfl⟩ := Nat.exists_eq_add_of_le' (Nat.one_le_of_lt hn)
  have hm : 511 ≤ m := Nat.le_of_succ_le_succ hn
  -- an open escape sequence swallows the first letter
  have hopen : ∀ state, (escapeStep state 0x78) = (0, true) →
      0x0A ∉ (Discipline.feed ⟨state, line⟩ (List.replicate (m + 1) 0x78 ++ [0x0A])).2 := by
    intro state hstate
    have hstep : Discipline.step ⟨state, line⟩ 0x78 = (⟨0, line⟩, []) := by
      rw [Discipline.step, hstate]
      rfl
    rw [List.replicate_succ, List.cons_append, Discipline.feed, Mealy.run_cons, hstep,
      List.nil_append]
    exact Discipline.feed_full (d := ⟨0, line⟩) ⟨h.line_lt, h.noNewline⟩ rfl hm
  rcases escape with _ | _ | _ | state
  · exact Discipline.feed_full h rfl (Nat.le_of_lt hn)
  · exact hopen 1 rfl
  · exact hopen 2 rfl
  · -- no byte leaves such a state
    have hstuck : ∀ bytes, Discipline.feed ⟨state + 3, line⟩ bytes = (⟨state + 3, line⟩, []) := by
      intro bytes
      induction bytes with
      | nil => rfl
      | cons b bytes ih =>
        have hfilter : escapeStep (state + 3) b = (state + 3, true) := by
          rw [escapeStep, if_neg (by omega), if_neg (by omega), if_neg fun hc => by omega]
        have hstep : Discipline.step ⟨state + 3, line⟩ b = (⟨state + 3, line⟩, []) := by
          rw [Discipline.step, hfilter]
          rfl
        rw [Discipline.feed, Mealy.run_cons, hstep]
        exact ih
    rw [hstuck]
    exact List.not_mem_nil

/-! ## A shell and its TTY -/

/-- The shell reads where the TTY delivers. `kernel_main` wires both to the PTY of its session;
without a session both use the TTY's own queue. -/
inductive Wired (s : Sys) : Prop
  /-- both at an allocated PTY -/
  | pty (i : ℕ) (hpty : s.tty.ttySessionPty = i) (hvalid : ptyIsValid s.ptys i = true)
    (hactive : sessionActivePty s.sessions = i) : Wired s
  /-- both at the TTY's own queue -/
  | ring (hpty : s.tty.ttySessionPty < 0) (hactive : sessionActivePty s.sessions < 0) : Wired s

/-- What holds of a system between any two steps of a poll, when `keys` are still in the keyboard
queue. It is the invariant of the polls: every function of the input side keeps it, also
`selftest`. -/
structure Live (keys : List UInt8) (s : Sys) : Prop where
  /-- the TTY is sound -/
  tty : TtyOk s
  /-- canonical mode -/
  canonical : s.tty.ttyCanonical = true
  /-- its reader is the shell -/
  wired : Wired s
  /-- the keyboard queue -/
  kbd : KbdHolds s.kbd keys
  /-- `shell_line` has room for its NUL -/
  shellLen : s.shell.shellLen < shellLineMax

/-- `s'` comes after `s`, and no newline has joined the reader's queue. Since only a newline makes
the shell run a command, and only a command brings bytes in, this bounds how long a poll goes on.
-/
structure Continues (keys : List UInt8) (s s' : Sys) : Prop where
  /-- the system stays sound -/
  live : Live keys s'
  /-- and the shell's session active -/
  sessions : s'.sessions = s.sessions
  /-- newlines only go away -/
  newlines : s'.readerQueue.count 0x0A ≤ s.readerQueue.count 0x0A

/-- `s'` comes after `s`, and the reader's queue is the same. All bytes but newlines are of this
kind for the shell. -/
structure Quiet (keys : List UInt8) (s s' : Sys) : Prop where
  /-- the system stays sound -/
  live : Live keys s'
  /-- and the shell's session active -/
  sessions : s'.sessions = s.sessions
  /-- nothing is delivered or read -/
  queue : s'.readerQueue = s.readerQueue

variable {keys : List UInt8}

theorem Continues.trans {s₁ s₂ s₃ : Sys} (h₁ : Continues keys s₁ s₂)
    (h₂ : Continues keys s₂ s₃) : Continues keys s₁ s₃ :=
  ⟨h₂.live, h₂.sessions.trans h₁.sessions, h₂.newlines.trans h₁.newlines⟩

theorem Quiet.trans {s₁ s₂ s₃ : Sys} (h₁ : Quiet keys s₁ s₂) (h₂ : Quiet keys s₂ s₃) :
    Quiet keys s₁ s₃ :=
  ⟨h₂.live, h₂.sessions.trans h₁.sessions, h₂.queue.trans h₁.queue⟩

theorem Quiet.continues {s s' : Sys} (h : Quiet keys s s') : Continues keys s s' :=
  ⟨h.live, h.sessions, (congrArg (List.count 0x0A) h.queue).le⟩

namespace Live

variable {s s' : Sys}

theorem reader (h : Live keys s) : ReaderOk s := h.tty.reader

theorem length_readerQueue (h : Live keys s) : s.readerQueue.length ≤ 2047 := by
  rw [Sys.readerQueue]
  split
  · rw [Ptys.length_queued]
    exact Nat.le_of_lt_succ (h.reader.ptys.inRange _ _).count_lt
  · rw [SlotRing.length_contents]
    exact Nat.le_of_lt_succ h.reader.ring.count_lt

/-- Only what the shell keeps has changed. -/
theorem shell (h : Live keys s) (hptys : s'.ptys = s.ptys) (htty : s'.tty = s.tty)
    (hsessions : s'.sessions = s.sessions) (hkbd : s'.kbd = s.kbd)
    (hlen : s'.shell.shellLen < shellLineMax) : Quiet keys s s' := by
  obtain ⟨kbd, ptys, sessions, tty, shell', history, gauges, calls⟩ := s'
  obtain rfl : ptys = s.ptys := hptys
  obtain rfl : tty = s.tty := htty
  obtain rfl : sessions = s.sessions := hsessions
  obtain rfl : kbd = s.kbd := hkbd
  refine ⟨⟨⟨⟨h.reader.ptys, h.reader.ring⟩, h.tty.line_lt, h.tty.noNewline⟩, h.canonical, ?_,
    h.kbd, hlen⟩, rfl, rfl⟩
  cases h.wired with
  | pty i hpty hvalid hactive => exact .pty i hpty hvalid hactive
  | ring hpty hactive => exact .ring hpty hactive

/-- Calls to the console do not count. -/
theorem emit (h : Live keys s) (cs : List Call) : Quiet keys s (s.emit cs) :=
  h.shell rfl rfl rfl rfl h.shellLen

/-- The keyboard queue, when nothing else has changed. -/
theorem setKbd (h : Live keys s) {k : Kbd} {keys' : List UInt8} (hk : KbdHolds k keys') :
    Live keys' { s with kbd := k } := by
  refine ⟨⟨⟨h.reader.ptys, h.reader.ring⟩, h.tty.line_lt, h.tty.noNewline⟩, h.canonical, ?_, hk,
    h.shellLen⟩
  cases h.wired with
  | pty i hpty hvalid hactive => exact .pty i hpty hvalid hactive
  | ring hpty hactive => exact .ring hpty hactive

/-- Only the PTYs have changed, and none was taken back. -/
theorem setPtys (h : Live keys s) {p : Ptys} (hok : p.Ok)
    (hvalid : ∀ i : ℕ, ptyIsValid s.ptys i = true → ptyIsValid p i = true) :
    Live keys { s with ptys := p } := by
  refine ⟨⟨⟨hok, h.reader.ring⟩, h.tty.line_lt, h.tty.noNewline⟩, h.canonical, ?_, h.kbd,
    h.shellLen⟩
  cases h.wired with
  | pty i hpty hv hactive => exact .pty i hpty (hvalid i hv) hactive
  | ring hpty hactive => exact .ring hpty hactive

/-- The reader's queue, at an allocated PTY. -/
theorem readerQueue_pty {i : ℕ} (hpty : s.tty.ttySessionPty = i)
    (hvalid : ptyIsValid s.ptys i = true) : s.readerQueue = s.ptys.queued i .m2s :=
  Sys.readerQueue_attached (Sys.attached_iff.mpr ⟨i, hpty, hvalid⟩) hpty

/-- The reader's queue, at no PTY. -/
theorem readerQueue_none (hpty : s.tty.ttySessionPty < 0) :
    s.readerQueue = s.tty.ttyReadQueue.contents ttyReadQueueSize := by
  refine Sys.readerQueue_ring ?_
  rw [Sys.attached, decide_eq_false (not_le.mpr hpty), Bool.false_and]

/-- The reader's queue, when only the PTYs have changed. -/
theorem readerQueue_setPtys (h : Live keys s) {p : Ptys}
    (hvalid : ∀ i : ℕ, ptyIsValid s.ptys i = true → ptyIsValid p i = true)
    (hqueued : ∀ i : ℕ, s.tty.ttySessionPty = i → ptyIsValid s.ptys i = true →
      p.queued i .m2s <:+ s.ptys.queued i .m2s) :
    Sys.readerQueue { s with ptys := p } <:+ s.readerQueue := by
  cases h.wired with
  | pty i hpty hv hactive =>
    rw [readerQueue_pty hpty hv, readerQueue_pty (s := { s with ptys := p }) hpty (hvalid i hv)]
    exact hqueued i hpty hv
  | ring hpty hactive =>
    rw [readerQueue_none hpty, readerQueue_none (s := { s with ptys := p }) hpty]

/-- A byte is received. -/
theorem receive (h : Live keys s) (byte : UInt8) : Live keys (ttyReceive s byte) := by
  have hr := ttyReceive_received h.reader h.canonical byte
  have hframe := ttyReceive_frame s byte
  refine ⟨ttyReceive_ok h.tty byte, hr.canonical.trans h.canonical, ?_, ?_, ?_⟩
  · cases h.wired with
    | pty i hpty hvalid hactive =>
      refine .pty i (hr.pushes.sessionPty.trans hpty) ?_ (by rw [hframe.sessions, hactive])
      rw [ptyIsValid_congr hr.pushes.allocated, hvalid]
    | ring hpty hactive =>
      exact .ring (hr.pushes.sessionPty.trans_lt hpty) (by rwa [hframe.sessions])
  · rw [hframe.kbd]
    exact h.kbd
  · rw [hframe.shell]
    exact h.shellLen

theorem receives (h : Live keys s) (bytes : List UInt8) : Live keys (bytes.foldl ttyReceive s) :=
  List.foldlRecOn bytes ttyReceive h fun _ h b _ => h.receive b

end Live

/-! ## Reading a PTY -/

/-- `p'` is `p` after some bytes were read from the slave side of PTY `i`. -/
structure Drained (i : ℕ) (p p' : Ptys) : Prop where
  /-- the table stays sound -/
  ok : p'.Ok
  /-- no PTY is handed out or taken back -/
  valid : ∀ j, ptyIsValid p' j = ptyIsValid p j
  /-- what is left -/
  left : p'.queued i .m2s <:+ p.queued i .m2s
  /-- no other PTY changes -/
  others : ∀ j, j ≠ i → p'.queued j .m2s = p.queued j .m2s

theorem Drained.trans {i : ℕ} {p₁ p₂ p₃ : Ptys} (h₁ : Drained i p₁ p₂) (h₂ : Drained i p₂ p₃) :
    Drained i p₁ p₃ :=
  ⟨h₂.ok, fun j => (h₂.valid j).trans (h₁.valid j), h₂.left.trans h₁.left,
    fun j hj => (h₂.others j hj).trans (h₁.others j hj)⟩

/-- One read. -/
theorem ptySlaveRead_drained {i : ℕ} {p : Ptys} (hp : p.Ok) (hv : ptyIsValid p i = true)
    (len : ℕ) : Drained i p (ptySlaveRead p i true len).1 := by
  obtain ⟨hok, hq, hother, -, -⟩ := ptyRead_spec hp hv .m2s len
  refine ⟨hok, fun j => ptyIsValid_ptyRead .., ⟨_, hq.symm⟩, fun j hj => ?_⟩
  exact hother j .m2s fun hc => hj hc.1

theorem drainPty_drained {i : ℕ} (chunk fuel : ℕ) :
    ∀ {p : Ptys}, p.Ok → ptyIsValid p i = true → Drained i p (drainPty i chunk fuel p).1 := by
  induction fuel with
  | zero => exact fun hp _ => ⟨hp, fun _ => rfl, List.suffix_rfl, fun _ _ => rfl⟩
  | succ fuel ih =>
    intro p hp hv
    have hread := ptySlaveRead_drained hp hv chunk
    rw [drainPty]
    dsimp only
    split
    · exact hread
    · exact hread.trans (ih hread.ok ((hread.valid i).trans hv))

/-! ## The commands -/

/-- A new PTY is none of those there are. -/
theorem ptyAlloc_new {p : Ptys} (hid : ¬(ptyAlloc p).2 < 0) :
    ∃ k : ℕ, (ptyAlloc p).2 = k ∧ ptyIsValid (ptyAlloc p).1 k = true ∧
      ∀ i : ℕ, ptyIsValid p i = true → i ≠ k ∧ ptyIsValid (ptyAlloc p).1 i = true := by
  rcases ptyAlloc_cases p with ⟨h, -⟩ | ⟨k, hk, hfree, h⟩
  · rw [h] at hid
    exact absurd (by decide : (-1 : ℤ) < 0) hid
  · rw [h]
    refine ⟨k, rfl, ptyIsValid_iff.mpr ⟨k, hk, rfl, ?_⟩, fun i hi => ?_⟩
    · rw [Ptys.gPtys_setSlot_self]
    · obtain ⟨j, hj, hij, halloc⟩ := ptyIsValid_iff.mp hi
      obtain rfl : i = j := by exact_mod_cast hij
      have hne : i ≠ k := by
        rintro rfl
        exact Bool.false_ne_true (hfree.symm.trans halloc)
      refine ⟨hne, ptyIsValid_iff.mpr ⟨i, hj, rfl, ?_⟩⟩
      rw [Ptys.gPtys_setSlot_ne _ hne, halloc]

/-- No new PTY: nothing has changed. -/
theorem ptyAlloc_full {p : Ptys} (hid : (ptyAlloc p).2 < 0) : (ptyAlloc p).1 = p := by
  rcases ptyAlloc_cases p with ⟨h, -⟩ | ⟨k, -, -, h⟩
  · rw [h]
  · rw [h] at hid
    exact absurd hid (not_lt.mpr (Int.natCast_nonneg k))

/-- The PTY calls of `cmd_selftest`, up to the line it types. -/
def selftestPtys (p : Ptys) : Ptys :=
  let writeBuf := (List.range 4096).map fun i => UInt8.ofNat ('A'.toNat + i % 26)
  let a := ptyAlloc p
  let d := drainPty a.2 256 ptyQueueSize (ptyMasterWrite a.1 a.2 (some writeBuf)).1
  (ptyMasterWrite d.1 (-1) (some (writeBuf.take 1))).1

/-- They leave the PTYs alone that there were. -/
theorem selftestPtys_spec {p : Ptys} (hp : p.Ok) (hid : ¬(ptyAlloc p).2 < 0) :
    (selftestPtys p).Ok ∧ ∀ i : ℕ, ptyIsValid p i = true →
      ptyIsValid (selftestPtys p) i = true ∧ (selftestPtys p).queued i .m2s = p.queued i .m2s := by
  obtain ⟨k, hk, hvalid, hothers⟩ := ptyAlloc_new hid
  obtain ⟨hok, hqueued, -⟩ := ptyAlloc_spec hp
  set writeBuf : List UInt8 := (List.range 4096).map fun i => UInt8.ofNat ('A'.toNat + i % 26)
    with hbuf
  obtain ⟨hok', hqueued', -, -⟩ := ptyWrite_spec hok hvalid .m2s writeBuf
  have hdrain := drainPty_drained 256 ptyQueueSize hok'
    ((ptyIsValid_ptyWrite .m2s _ k k (some writeBuf)).trans hvalid)
  have hself : selftestPtys p = (drainPty k 256 ptyQueueSize
      (ptyWrite .m2s (ptyAlloc p).1 k (some writeBuf)).1).1.countInvalid := by
    rw [selftestPtys, hk, ← hbuf]
    exact congrArg Prod.fst (ptyWrite_invalid (Or.inl rfl) .m2s)
  rw [hself]
  generalize drainPty k 256 ptyQueueSize (ptyWrite .m2s (ptyAlloc p).1 k (some writeBuf)).1 = d
    at hdrain ⊢
  refine ⟨hdrain.ok.counters _ _, fun i hi => ?_⟩
  obtain ⟨hne, hi'⟩ := hothers i hi
  refine ⟨?_, ?_⟩
  · refine (hdrain.valid i).trans ?_
    exact (ptyIsValid_ptyWrite ..).trans hi'
  · refine (hdrain.others i hne).trans ?_
    rw [hqueued', if_neg fun hc => hne hc.1, hqueued]

/-- `cmd_selftest`, without the words it prints. -/
theorem cmdSelftest_eq (s : Sys) :
    ∃ cs, executed cs = [] ∧ cmdSelftest s =
      if (ptyAlloc s.ptys).2 < 0 then s.emit cs
      else
        (drainActivePty (ttyTestInjectBytes { s with ptys := selftestPtys s.ptys }
          (List.replicate 899 0x78 ++ [0x0A]))).emit cs := by
  rw [cmdSelftest]
  by_cases hid : (ptyAlloc s.ptys).2 < 0
  · rw [if_pos hid]
    refine ⟨[say "selftest: pty alloc failed\n"], rfl, ?_⟩
    rw [if_pos hid, ptyAlloc_full hid]
  · rw [if_neg hid]
    refine ⟨_, ?_, by rw [if_neg hid]; rfl⟩
    rfl

/-- The active PTY is read empty. -/
theorem drainActivePty_continues {s : Sys} (h : Live keys s) :
    Continues keys s (drainActivePty s) := by
  rw [drainActivePty]
  cases h.wired with
  | pty i hpty hvalid hactive =>
    have hdrain := drainPty_drained 128 ptyQueueSize h.reader.ptys hvalid
    rw [hactive, if_neg (not_lt.mpr (Int.natCast_nonneg i))]
    have hkeep : ∀ j : ℕ, ptyIsValid s.ptys j = true →
        ptyIsValid (drainPty i 128 ptyQueueSize s.ptys).1 j = true :=
      fun j hj => (hdrain.valid j).trans hj
    refine ⟨h.setPtys hdrain.ok hkeep, rfl, ?_⟩
    refine List.Sublist.count_le _ (List.IsSuffix.sublist ?_)
    refine h.readerQueue_setPtys hkeep fun j hj _ => ?_
    obtain rfl : i = j := by exact_mod_cast hpty.symm.trans hj
    exact hdrain.left
  | ring hpty hactive =>
    rw [if_pos hactive]
    exact ⟨h, rfl, le_rfl⟩

theorem ttyTestInjectBytes_sessions (s : Sys) (bytes : List UInt8) :
    (ttyTestInjectBytes s bytes).sessions = s.sessions :=
  List.foldlRecOn (motive := fun u => u.sessions = s.sessions) bytes ttyReceive rfl
    fun u h b _ => (ttyReceive_frame u b).sessions.trans h

/-- **`selftest`** brings no newline. -/
theorem cmdSelftest_continues {s : Sys} (h : Live keys s) :
    Continues keys s (cmdSelftest s) := by
  obtain ⟨cs, -, heq⟩ := cmdSelftest_eq s
  rw [heq]
  split
  · exact (h.emit cs).continues
  · rename_i hid
    obtain ⟨hok, hothers⟩ := selftestPtys_spec h.reader.ptys hid
    have hkeep : ∀ i : ℕ, ptyIsValid s.ptys i = true →
        ptyIsValid (selftestPtys s.ptys) i = true := fun i hi => (hothers i hi).1
    have hlive := h.setPtys hok hkeep
    have hptys : Continues keys s { s with ptys := selftestPtys s.ptys } := by
      refine ⟨hlive, rfl, List.Sublist.count_le _ (List.IsSuffix.sublist ?_)⟩
      refine h.readerQueue_setPtys hkeep fun i _ hi => ?_
      rw [(hothers i hi).2]
    -- The line it types is cut, so it delivers no newline to the shell.
    set u : Sys := { s with ptys := selftestPtys s.ptys }
    have htyped : Continues keys u
        (ttyTestInjectBytes u (List.replicate 899 0x78 ++ [0x0A])) := by
      refine ⟨hlive.receives _, ttyTestInjectBytes_sessions u _, ?_⟩
      have hr := ttyReceives_received (List.replicate 899 0x78 ++ [0x0A]) hlive.reader
        hlive.canonical
      have hnone := Discipline.feed_letters (d := u.discipline)
        ⟨hlive.tty.line_lt, hlive.tty.noNewline⟩ (n := 899) (by decide)
      rw [ttyTestInjectBytes, hr.pushes.queue, List.count_append,
        List.count_eq_zero_of_not_mem fun hm => hnone (List.mem_of_mem_take hm), Nat.add_zero]
    have hdrained := drainActivePty_continues htyped.live
    exact hptys.trans (htyped.trans (hdrained.trans (hdrained.live.emit cs).continues))

/-- The line is `selftest`: the history, then the command. -/
theorem executeCommand_selftest (s : Sys) {line : List UInt8} (h : IsSelftest line) :
    executeCommand s line =
      cmdSelftest ({ s with rustHistoryCount := s.rustHistoryCount + 1 }.emit
        [.rustHistoryPush (text "selftest")]) := by
  rw [executeCommand, h]
  rfl

/-- **A command** brings no newline. -/
theorem executeCommand_continues {s : Sys} (h : Live keys s) (line : List UInt8) :
    Continues keys s (executeCommand s line) := by
  by_cases hself : IsSelftest line
  · have hpush : Quiet keys s ({ s with rustHistoryCount := s.rustHistoryCount + 1 }.emit
        [.rustHistoryPush (text "selftest")]) := h.shell rfl rfl rfl rfl h.shellLen
    rw [executeCommand_selftest s hself]
    exact hpush.continues.trans (cmdSelftest_continues hpush.live)
  · have hprints := executeCommand_prints s hself
    exact (h.shell hprints.ptys hprints.tty hprints.frame.sessions hprints.frame.kbd
      (by rw [hprints.frame.shell]; exact h.shellLen)).continues

/-! ## The shell takes a byte -/

/-- No byte but a newline changes anything below the shell. -/
theorem shellByte_quiet {s : Sys} (h : Live keys s) {c : UInt8} (hc : c ≠ 0x0A) :
    Quiet keys s (shellByte s c) := by
  have hsame : Quiet keys s s := ⟨h, rfl, rfl⟩
  rw [shellByte]
  split_ifs with h3 hclear h4 hctl hfits
  · exact h.shell rfl rfl rfl rfl (Nat.zero_lt_succ _)
  · dsimp only
    split_ifs
    · exact h.shell rfl rfl rfl rfl h.shellLen
    · exact h.shell rfl rfl rfl rfl h.shellLen
  · exact hsame
  · exact hsame
  · exact h.shell rfl rfl rfl rfl hfits
  · exact hsame

/-- Nor does any byte bring a newline. -/
theorem shellByte_continues {s : Sys} (h : Live keys s) (c : UInt8) :
    Continues keys s (shellByte s c) := by
  by_cases hc : c = 0x0A
  · subst hc
    rw [shellByte, if_neg (by decide), if_neg (by decide), if_pos rfl]
    dsimp only
    set line := cString (Function.update s.shell.shellLine s.shell.shellLen 0)
    set u : Sys := Sys.emit { s with
      shell.shellLine := Function.update s.shell.shellLine s.shell.shellLen 0 }
      [.executeCommand line] with hu
    have hbefore : Quiet keys s u := h.shell rfl rfl rfl rfl h.shellLen
    have hrun := executeCommand_continues hbefore.live line
    have hprompt : Quiet keys (executeCommand u line)
        (shellPrompt { executeCommand u line with shell.shellLen := 0 }) :=
      hrun.live.shell rfl rfl rfl rfl (Nat.zero_lt_succ _)
    exact hbefore.continues.trans (hrun.trans hprompt.continues)
  · exact (shellByte_quiet h hc).continues

/-- What is left to do before a queue has been read: a newline may bring as many other
bytes as the queue can hold. -/
def readerWork (queue : List UInt8) : ℕ := 2048 * queue.count 0x0A + queue.length

/-- Bytes without a newline change nothing below the shell. -/
theorem shellBytes_quiet (bytes : List UInt8) :
    ∀ {s : Sys}, Live keys s → 0x0A ∉ bytes → Quiet keys s (bytes.foldl shellByte s) := by
  induction bytes with
  | nil => exact fun h _ => ⟨h, rfl, rfl⟩
  | cons c bytes ih =>
    intro s h hnl
    obtain ⟨hc, hbytes⟩ := not_or.mp (mt List.mem_cons.mpr hnl)
    have hone := shellByte_quiet h (Ne.symm hc)
    exact hone.trans (ih hone.live hbytes)

theorem shellBytes_continues {s : Sys} (h : Live keys s) (bytes : List UInt8) :
    Continues keys s (bytes.foldl shellByte s) :=
  List.foldlRecOn bytes shellByte ⟨h, rfl, le_rfl⟩ fun _ hs c _ =>
    hs.trans (shellByte_continues hs.live c)

/-- A chunk that has been read is work that has been done. -/
theorem shellBytes_work {s : Sys} (h : Live keys s) {chunk : List UInt8} (hne : chunk ≠ []) :
    readerWork (chunk.foldl shellByte s).readerQueue < readerWork (chunk ++ s.readerQueue) := by
  rw [readerWork, readerWork, List.count_append, List.length_append]
  by_cases hnl : 0x0A ∈ chunk
  · have hcont := shellBytes_continues h chunk
    have hcount := hcont.newlines
    have hlen := hcont.live.length_readerQueue
    have hpos : 0 < chunk.count 0x0A := List.count_pos_iff.mpr hnl
    omega
  · rw [(shellBytes_quiet chunk h hnl).queue]
    have hpos := List.length_pos_iff.mpr hne
    omega

/-! ## The loops -/

/-- A shell that reads a PTY is wired to that one. -/
theorem Live.pty_of_active {s : Sys} (h : Live keys s) {i : ℕ}
    (hactive : sessionActivePty s.sessions = i) :
    s.tty.ttySessionPty = i ∧ ptyIsValid s.ptys i = true := by
  cases h.wired with
  | pty j hpty hvalid hj =>
    obtain rfl : i = j := by exact_mod_cast hactive.symm.trans hj
    exact ⟨hpty, hvalid⟩
  | ring _ hnone => exact absurd (hactive ▸ hnone) (not_lt.mpr (Int.natCast_nonneg i))

/-- A shell that reads no PTY reads the TTY. -/
theorem Live.none_of_active {s : Sys} (h : Live keys s)
    (hactive : sessionActivePty s.sessions < 0) : s.tty.ttySessionPty < 0 := by
  cases h.wired with
  | pty i _ _ hi => exact absurd (hi ▸ hactive) (not_lt.mpr (Int.natCast_nonneg i))
  | ring hpty _ => exact hpty

/-- `s'` is `s` after the shell has taken `chunk` out of the reader's queue. A PTY gives up to 128
bytes and the TTY one, and that is the only difference between the two ways. -/
structure ReadsChunk (keys : List UInt8) (s s' : Sys) (chunk : List UInt8) : Prop where
  /-- the system stays sound -/
  live : Live keys s'
  /-- and the shell's session active -/
  sessions : s'.sessions = s.sessions
  /-- the chunk is the front of the queue -/
  queue : s.readerQueue = chunk ++ s'.readerQueue
  /-- it is empty only if the queue is -/
  nonempty : chunk = [] → s.readerQueue = []

/-- A read of the PTY. -/
theorem ptySlaveRead_reads {s : Sys} (h : Live keys s) {i : ℕ}
    (hactive : sessionActivePty s.sessions = i) :
    ReadsChunk keys s { s with ptys := (ptySlaveRead s.ptys i true 128).1 }
      (ptySlaveRead s.ptys i true 128).2 := by
  obtain ⟨hpty, hvalid⟩ := h.pty_of_active hactive
  obtain ⟨hok, hq, -, hlen, -⟩ := ptyRead_spec h.reader.ptys hvalid .m2s 128
  have hkeep : ∀ j : ℕ, ptyIsValid s.ptys j = true →
      ptyIsValid (ptySlaveRead s.ptys i true 128).1 j = true :=
    fun j hj => (ptyIsValid_ptyRead ..).trans hj
  have hlive : Live keys { s with ptys := (ptySlaveRead s.ptys i true 128).1 } :=
    h.setPtys hok hkeep
  have hbefore := Live.readerQueue_pty hpty hvalid
  refine ⟨hlive, rfl, ?_, fun hnil => ?_⟩
  · obtain ⟨hpty', hvalid'⟩ := hlive.pty_of_active hactive
    rw [hbefore, Live.readerQueue_pty hpty' hvalid']
    exact hq
  -- A read that returns nothing although it may return 128 bytes.
  · change (ptyRead .m2s s.ptys i true 128).2 = [] at hnil
    rw [hnil, List.length_nil] at hlen
    rw [hbefore]
    exact List.length_eq_zero_iff.mp (by omega)

/-- A read of the TTY. -/
theorem ttyPopChar_reads {s : Sys} (h : Live keys s)
    (hactive : sessionActivePty s.sessions < 0) :
    ReadsChunk keys s (ttyPopChar s).1 (ttyPopChar s).2.toList := by
  have hpty := h.none_of_active hactive
  have hbefore := Live.readerQueue_none hpty
  have hok := ttyPopChar_ok h.tty
  by_cases hempty : s.tty.ttyReadQueue.tail = s.tty.ttyReadQueue.head
  · rw [ttyPopChar, if_pos hempty]
    exact ⟨h, rfl, rfl, fun _ => hbefore.trans (h.reader.ring.empty_iff.mp hempty)⟩
  · rw [ttyPopChar, if_neg hempty] at hok ⊢
    have hlive : Live keys _ := ⟨hok, h.canonical, .ring hpty hactive, h.kbd, h.shellLen⟩
    refine ⟨hlive, rfl, ?_, fun hnil => absurd hnil (List.cons_ne_nil _ _)⟩
    rw [hbefore, Live.readerQueue_none (hlive.none_of_active hactive)]
    exact h.reader.ring.contents_pop hempty

namespace ReadsChunk

variable {s s' : Sys} {chunk : List UInt8}

/-- Reading and then handling what was read. -/
theorem continues (h : ReadsChunk keys s s' chunk) :
    Continues keys s (chunk.foldl shellByte s') := by
  refine Continues.trans ⟨h.live, h.sessions, ?_⟩ (shellBytes_continues h.live chunk)
  rw [h.queue, List.count_append]
  exact Nat.le_add_left _ _

/-- There is less to do afterwards. -/
theorem work (h : ReadsChunk keys s s' chunk) (hne : chunk ≠ []) :
    readerWork (chunk.foldl shellByte s').readerQueue < readerWork s.readerQueue := by
  rw [h.queue]
  exact shellBytes_work h.live hne

/-- A read that finds nothing leaves nothing. -/
theorem rest (h : ReadsChunk keys s s' chunk) (hnil : chunk = []) : s'.readerQueue = [] :=
  (List.append_eq_nil_iff.mp (h.queue.symm.trans (h.nonempty hnil))).2

theorem done (h : ReadsChunk keys s s' []) : Continues keys s s' ∧ s'.readerQueue = [] :=
  ⟨h.continues, h.rest rfl⟩

end ReadsChunk

/-- The PTY loop reads everything. -/
theorem shellPtyLoop_empties {i : ℕ} (fuel : ℕ) :
    ∀ {s : Sys}, Live keys s → sessionActivePty s.sessions = i →
      readerWork s.readerQueue < fuel →
      Continues keys s (shellPtyLoop i fuel s) ∧ (shellPtyLoop i fuel s).readerQueue = [] := by
  induction fuel with
  | zero => exact fun _ _ hwork => absurd hwork (Nat.not_lt_zero _)
  | succ fuel ih =>
    intro s h hactive hwork
    have hread := ptySlaveRead_reads h hactive
    rw [shellPtyLoop]
    split
    · rename_i hnil
      rw [List.length_eq_zero_iff.mp hnil] at hread
      exact hread.done
    · rename_i hne
      have hone := hread.continues
      -- Handling a chunk leaves less work, so the fuel is enough.
      have hless := hread.work (mt List.length_eq_zero_iff.mpr hne)
      obtain ⟨hrest, hqueue⟩ := ih hone.live
        ((congrArg sessionActivePty hone.sessions).trans hactive)
        (Nat.lt_of_lt_of_le hless (Nat.le_of_lt_succ hwork))
      exact ⟨hone.trans hrest, hqueue⟩

/-- So does the TTY loop. -/
theorem shellTtyLoop_empties (fuel : ℕ) :
    ∀ {s : Sys}, Live keys s → sessionActivePty s.sessions < 0 →
      readerWork s.readerQueue < fuel →
      Continues keys s (shellTtyLoop fuel s) ∧ (shellTtyLoop fuel s).readerQueue = [] := by
  induction fuel with
  | zero => exact fun _ _ hwork => absurd hwork (Nat.not_lt_zero _)
  | succ fuel ih =>
    intro s h hactive hwork
    have hread := ttyPopChar_reads h hactive
    rw [shellTtyLoop]
    generalize ttyPopChar s = r at hread ⊢
    obtain ⟨u, _ | c⟩ := r
    · exact hread.done
    · have hone := hread.continues
      have hless := hread.work (List.cons_ne_nil c [])
      obtain ⟨hrest, hqueue⟩ := ih hone.live
        ((congrArg sessionActivePty hone.sessions).trans_lt hactive)
        (Nat.lt_of_lt_of_le hless (Nat.le_of_lt_succ hwork))
      exact ⟨hone.trans hrest, hqueue⟩

/-- A full queue of newlines is less work than the loops have fuel for. -/
theorem Live.work_lt {s : Sys} (h : Live keys s) : readerWork s.readerQueue < shellFuel := by
  have hlen := h.length_readerQueue
  have hcount : s.readerQueue.count 0x0A ≤ s.readerQueue.length := List.count_le_length
  rw [readerWork]
  change _ < 4194304
  omega

/-! ## A poll -/

/-- Between two polls: nothing waits anywhere to be read. Every poll ends in such a state, and
`kernel_main` enters its loop in one. -/
structure Settled (s : Sys) : Prop where
  /-- the system is sound, and the keyboard queue is empty -/
  live : Live [] s
  /-- the reader has read everything -/
  queue : s.readerQueue = []

/-- The receive loop takes what the keyboard has queued. -/
theorem ttyPollLoop_live (fuel : ℕ) :
    ∀ {s : Sys} {keys : List UInt8}, Live keys s → keys.length < fuel →
      Live [] (ttyPollLoop fuel s) := by
  induction fuel with
  | zero => exact fun _ hlen => absurd hlen (Nat.not_lt_zero _)
  | succ fuel ih =>
    intro s keys h hlen
    rw [ttyPollLoop]
    cases keys with
    | nil =>
      rw [keyboardPopChar_none h.kbd]
      exact h
    | cons byte keys =>
      obtain ⟨k, hpop, hk⟩ := keyboardPopChar_some h.kbd
      rw [hpop]
      exact ih ((h.setKbd hk).receive byte) (Nat.lt_of_succ_lt_succ hlen)

/-- **A poll reads everything.** -/
theorem shellPoll_settled {s : Sys} (h : Live keys s) (hlen : keys.length < kbdByteQueueSize) :
    Settled (shellPoll s) := by
  have hlive := ttyPollLoop_live kbdByteQueueSize h hlen
  rw [shellPoll, ttyPollInput]
  split
  · rename_i hactive
    obtain ⟨i, hi⟩ := Int.eq_ofNat_of_zero_le hactive
    rw [hi]
    obtain ⟨hcont, hqueue⟩ := shellPtyLoop_empties shellFuel hlive hi hlive.work_lt
    exact ⟨hcont.live, hqueue⟩
  · rename_i hactive
    obtain ⟨hcont, hqueue⟩ := shellTtyLoop_empties shellFuel hlive (not_le.mp hactive)
      hlive.work_lt
    exact ⟨hcont.live, hqueue⟩

/-- A batch that fits the keyboard queue, as the poll finds it. -/
theorem Settled.typed {s : Sys} (h : Settled s) {batch : List UInt8} (hlen : batch.length ≤ 1023) :
    Live batch { s with kbd := kbdEmitSequence s.kbd batch } :=
  h.live.setKbd (kbdEmitSequence_holds h.live.kbd (Nat.lt_succ_of_le hlen))

theorem typeAndPoll_settled {s : Sys} (h : Settled s) {batch : List UInt8}
    (hlen : batch.length ≤ 1023) : Settled (typeAndPoll s batch) :=
  shellPoll_settled (h.typed hlen) (Nat.lt_succ_of_le hlen)

theorem typeAndPolls_settled {s : Sys} (h : Settled s) {batches : List (List UInt8)}
    (hlen : ∀ batch ∈ batches, batch.length ≤ 1023) :
    Settled (batches.foldl typeAndPoll s) :=
  List.foldlRecOn batches typeAndPoll h fun _ hs batch hmem => typeAndPoll_settled hs (hlen batch hmem)

end WaluOs
