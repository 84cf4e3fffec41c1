import Mathlib.Data.List.TakeWhile
import WaluOs.LineDiscipline
import WaluOs.Shell

/-!
# From the keyboard to the command

Text is typed in batches, with a poll of the shell after each. A poll moves the
batch through three buffers: the TTY's line buffer keeps the unfinished line,
the PTY queue carries the finished ones, and `shell_line` collects each of them
again before it is executed. Between two polls only the line buffer holds
anything (`AtRest`), so a poll can take in a whole batch without filling the
PTY, and the result does not depend on where the batches are cut.

The last section starts from what `kernel_main` sets up.
-/

namespace WaluOs

/-! ## Commands print -/

/-- Console output and history; nothing the input side reads. -/
def PrintsOnly (s s' : Sys) : Prop :=
  ∃ n cs, executed cs = [] ∧ s' = { s with rustHistoryCount := n, calls := s.calls ++ cs }

theorem PrintsOnly.refl (s : Sys) : PrintsOnly s s :=
  ⟨s.rustHistoryCount, [], rfl, by rw [List.append_nil]⟩

theorem PrintsOnly.emit {s s' : Sys} (h : PrintsOnly s s') {cs : List Call}
    (hcs : executed cs = []) : PrintsOnly s (s'.emit cs) := by
  obtain ⟨n, ds, hds, rfl⟩ := h
  refine ⟨n, ds ++ cs, by rw [executed_append, hds, hcs, List.append_nil], ?_⟩
  rw [Sys.emit, List.append_assoc]

theorem PrintsOnly.frame {s s' : Sys} (h : PrintsOnly s s') : Frame s s' := by
  obtain ⟨n, cs, hcs, rfl⟩ := h
  exact ⟨rfl, rfl, rfl, by rw [executed_append, hcs, List.append_nil]⟩

theorem PrintsOnly.tty {s s' : Sys} (h : PrintsOnly s s') : s'.tty = s.tty := by
  obtain ⟨n, cs, -, rfl⟩ := h
  rfl

theorem PrintsOnly.ptys {s s' : Sys} (h : PrintsOnly s s') : s'.ptys = s.ptys := by
  obtain ⟨n, cs, -, rfl⟩ := h
  rfl

theorem PrintsOnly.ite {s a b : Sys} {p : Prop} [Decidable p] (ha : PrintsOnly s a)
    (hb : ¬p → PrintsOnly s b) : PrintsOnly s (if p then a else b) := by
  split
  · exact ha
  · exact hb ‹_›

theorem executed_bitNames (bits : UInt8) (names : List (UInt8 × String)) :
    executed (bitNames bits names) = [] := by
  rw [bitNames]
  split
  · rfl
  · rw [executed, List.filterMap_filterMap, List.filterMap_eq_nil_iff]
    intro p _
    split <;> rfl

/-- The `selftest` command, as `execute_command` recognises it. It is set apart because it is the
only command that reads and writes the queues the shell itself reads. -/
abbrev IsSelftest (line : List UInt8) : Prop :=
  line.dropWhile (· == 0x20) = text "selftest"

/-- Every command but `selftest` only prints. -/
theorem executeCommand_prints (s : Sys) {line : List UInt8} (h : ¬IsSelftest line) :
    PrintsOnly s (executeCommand s line) := by
  have hpush : PrintsOnly s
      ({ s with rustHistoryCount := s.rustHistoryCount + 1 }.emit
        [.rustHistoryPush (line.dropWhile (· == 0x20))]) :=
    PrintsOnly.emit ⟨s.rustHistoryCount + 1, [], rfl, by rw [List.append_nil]⟩ (by rfl)
  have hkbdinfo : PrintsOnly s (cmdKbdinfo ({ s with
      rustHistoryCount := s.rustHistoryCount + 1 }.emit
        [.rustHistoryPush (line.dropWhile (· == 0x20))])) := by
    refine hpush.emit ?_
    simp only [executed_append, executed_bitNames]
    rfl
  rw [executeCommand]
  refine .ite (.refl s) fun _ => ?_
  -- help, clear, meminfo
  refine .ite (hpush.emit (by rfl)) fun _ => ?_
  refine .ite (hpush.emit (by rfl)) fun _ => ?_
  refine .ite (hpush.emit (by rfl)) fun _ => ?_
  refine .ite hkbdinfo fun _ => ?_
  -- ansi, ttyinfo, health, session
  refine .ite (hpush.emit (by rfl)) fun _ => ?_
  refine .ite (hpush.emit (by rfl)) fun _ => ?_
  refine .ite (hpush.emit (by rfl)) fun _ => ?_
  refine .ite (hpush.emit (by rfl)) fun _ => ?_
  rw [if_neg h]
  -- echo with and without text, and what is no command
  refine .ite (hpush.emit (by rfl)) fun _ => ?_
  exact .ite (hpush.emit (by rfl)) fun _ => hpush.emit (by rfl)

/-! ## The shell's line -/

/-- The first `shell_len` bytes of `shell_line`: the line that is being collected. -/
def Shell.line (sh : Shell) : List UInt8 := (List.range sh.shellLen).map sh.shellLine

@[simp] theorem Shell.length_line (sh : Shell) : sh.line.length = sh.shellLen := by
  simp [Shell.line]

theorem Shell.line_update (sh : Shell) (c : UInt8) (n : ℕ) (hn : n ≤ sh.shellLen) :
    (List.range n).map (Function.update sh.shellLine sh.shellLen c) =
      (List.range n).map sh.shellLine := by
  apply List.map_congr_left
  intro i hi
  have := List.mem_range.mp hi
  exact Function.update_of_ne (by omega) _ _

theorem Shell.line_push (sh : Shell) (c : UInt8) :
    Shell.line ⟨Function.update sh.shellLine sh.shellLen c, sh.shellLen + 1⟩ =
      sh.line ++ [c] := by
  rw [Shell.line, List.range_succ, List.map_append, sh.line_update c _ le_rfl]
  simp [Shell.line]

/-- Writing the NUL behind the line cuts the C string at the first NUL. -/
theorem cString_line (sh : Shell) (hlen : sh.shellLen < shellLineMax) :
    cString (Function.update sh.shellLine sh.shellLen 0) = sh.line.takeWhile (· != 0) := by
  obtain ⟨k, hk⟩ : ∃ k, shellLineMax = sh.shellLen + (k + 1) := Nat.exists_eq_add_of_lt hlen
  have hcut : ∀ (xs ys : List UInt8),
      (xs ++ 0 :: ys).takeWhile (· != 0) = xs.takeWhile (· != 0) := by
    intro xs ys
    induction xs with
    | nil => rfl
    | cons x xs ih => rw [List.cons_append, List.takeWhile_cons, List.takeWhile_cons, ih]
  rw [cString, hk, List.range_add, List.map_append, sh.line_update 0 _ le_rfl,
    List.range_succ_eq_map, List.map_cons, List.map_cons, Nat.add_zero, Function.update_self, hcut]
  rfl

/-- A line without a NUL is the C string of the array. -/
theorem cString_terminated (sh : Shell) (hlen : sh.shellLen < shellLineMax)
    (hnz : ∀ b ∈ sh.line, b ≠ 0) :
    cString (Function.update sh.shellLine sh.shellLen 0) = sh.line := by
  rw [cString_line sh hlen, List.takeWhile_eq_self_iff]
  exact fun b hb => bne_iff_ne.mpr (hnz b hb)

/-- What `shell_poll` never changes below the shell, once it has read its input and as long as no
command is `selftest`. -/
structure ShellFrame (s s' : Sys) : Prop where
  /-- the keyboard -/
  kbd : s'.kbd = s.kbd
  /-- the PTYs -/
  ptys : s'.ptys = s.ptys
  /-- the sessions -/
  sessions : s'.sessions = s.sessions
  /-- the TTY -/
  tty : s'.tty = s.tty

theorem ShellFrame.refl (s : Sys) : ShellFrame s s := ⟨rfl, rfl, rfl, rfl⟩

theorem ShellFrame.trans {s₁ s₂ s₃ : Sys} (h₁ : ShellFrame s₁ s₂) (h₂ : ShellFrame s₂ s₃) :
    ShellFrame s₁ s₃ :=
  ⟨h₂.kbd.trans h₁.kbd, h₂.ptys.trans h₁.ptys, h₂.sessions.trans h₁.sessions,
    h₂.tty.trans h₁.tty⟩

/-- The shell has executed `base` and the complete lines, and holds the pending one. It says where
the shell is in what was typed. -/
structure ShellAt (base : List (List UInt8)) (s : Sys) (t : EditedLines UInt8) : Prop where
  /-- the commands -/
  executed : executed s.calls = base ++ t.done
  /-- `shell_line` -/
  line : s.shell.line = t.pending

/-- What the shell can take in: lines that fit, no NUL, and no `selftest`. Under these a command
changes nothing but what is printed. -/
structure ShellRoom (t : EditedLines UInt8) : Prop where
  /-- `shell_line` has room for the NUL -/
  line : t.pending.length < shellLineMax
  /-- the line is a C string -/
  noNul : ∀ b ∈ t.pending, b ≠ 0
  /-- commands only print -/
  done : ∀ line ∈ t.done, ¬IsSelftest line

/-- A byte the line discipline sends: a newline or data. -/
def SentByte (byte : UInt8) : Prop := byte = 0x0A ∨ DataByte byte

/-- One byte of a line, or its end. A newline executes the line, and any other byte is stored,
since there is room for it. -/
theorem shellByte_typed {base : List (List UInt8)} {s : Sys} {t : EditedLines UInt8}
    (h : ShellAt base s t) {c : UInt8} (hc : SentByte c) (hroom : ShellRoom t)
    (hroom' : ShellRoom (EditedLines.feed keyKind t c)) :
    ShellAt base (shellByte s c) (EditedLines.feed keyKind t c) ∧
      ShellFrame s (shellByte s c) := by
  have hlen : s.shell.shellLen = t.pending.length := by rw [← h.line, Shell.length_line]
  have hlt := hroom.line
  rcases hc with rfl | hd
  · have hself : ¬IsSelftest t.pending := by
      rw [EditedLines.feed_newline rfl] at hroom'
      exact hroom'.done _ (by simp)
    have hstr : cString (Function.update s.shell.shellLine s.shell.shellLen 0) = t.pending := by
      rw [cString_terminated _ (by omega) (h.line ▸ hroom.noNul), h.line]
    rw [shellByte, if_neg (by decide), if_neg (by decide), if_pos rfl,
      EditedLines.feed_newline rfl]
    dsimp only
    rw [hstr]
    have hprints := executeCommand_prints
      (Sys.emit { s with shell.shellLine := Function.update s.shell.shellLine s.shell.shellLen 0 }
        [.executeCommand t.pending]) hself
    have hframe := hprints.frame
    refine ⟨⟨?_, rfl⟩, hframe.kbd, hprints.ptys, hframe.sessions, hprints.tty⟩
    rw [shellPrompt, Sys.emit, executed_append, hframe.executed, Sys.emit, executed_append,
      h.executed]
    simp [executed, say]
  · rw [EditedLines.feed_data hd.keyKind] at hroom' ⊢
    have hlt' := hroom'.line
    rw [List.length_append, List.length_singleton] at hlt'
    rw [shellByte, if_neg (hd.ne (by decide)), if_neg (hd.ne (by decide)),
      if_neg (hd.ne (by decide)), if_neg (hd.ne (by decide)), if_neg (dataByte_iff.mp hd),
      if_pos (by omega)]
    exact ⟨⟨h.executed, by rw [Shell.line_push, h.line]⟩, rfl, rfl, rfl, rfl⟩

/-- A chunk of bytes. -/
theorem shellBytes_typed {base : List (List UInt8)} (bytes : List UInt8) :
    ∀ {s : Sys} {t : EditedLines UInt8}, ShellAt base s t → (∀ c ∈ bytes, SentByte c) →
      FoldAlong (EditedLines.feed keyKind) ShellRoom t bytes →
      ShellAt base (bytes.foldl shellByte s) (EditedLines.feedAll keyKind t bytes) ∧
        ShellFrame s (bytes.foldl shellByte s) := by
  induction bytes with
  | nil => exact fun h _ _ => ⟨h, .refl _⟩
  | cons c bytes ih =>
    intro s t h hsent hroom
    obtain ⟨hc, hbytes⟩ := List.forall_mem_cons.mp hsent
    obtain ⟨hone, hframe⟩ := shellByte_typed h hc hroom.start hroom.tail.start
    obtain ⟨hrest, hframe'⟩ := ih hone hbytes hroom.tail
    exact ⟨hrest, hframe.trans hframe'⟩

/-! ## The PTY loop -/

/-- PTY `i` is allocated and has `sent` for its slave; nothing was dropped. It is what the shell
has to know of the queue that it reads. -/
structure PtyHolds (i : ℕ) (p : Ptys) (sent : List UInt8) : Prop where
  /-- allocated -/
  valid : ptyIsValid p i = true
  /-- table invariant -/
  ok : p.Ok
  /-- the queue to the slave -/
  sent : p.queued i .m2s = sent
  /-- no drops -/
  drops : p.gPtyDroppedBytes = 0

/-- Reading takes the next chunk. -/
theorem ptySlaveRead_holds {i : ℕ} {p : Ptys} {sent : List UInt8} (h : PtyHolds i p sent)
    (len : ℕ) :
    (ptySlaveRead p i true len).2 = sent.take len ∧
      PtyHolds i (ptySlaveRead p i true len).1 (sent.drop len) := by
  obtain ⟨hok, hq, -, hlen, hd⟩ := ptyRead_spec h.ok h.valid .m2s len
  rw [h.sent] at hq hlen
  have hlen' : (ptyRead .m2s p i true len).2.length = min len sent.length := hlen
  have htake : sent.take len = sent.take (ptyRead .m2s p i true len).2.length :=
    List.take_eq_take_iff.mpr (by omega)
  have hdrop : sent.drop len = sent.drop (ptyRead .m2s p i true len).2.length :=
    List.drop_eq_drop_iff.mpr (by omega)
  refine ⟨?_, (ptyIsValid_ptyRead ..).trans h.valid, hok, ?_, hd.trans h.drops⟩
  · rw [htake, hq, List.take_left]
    rfl
  · rw [hdrop, hq, List.drop_left]
    rfl

/-- The shell reads its PTY empty, chunk by chunk. How the bytes are cut into chunks of 128 does
not matter, since the shell handles them one by one. -/
theorem shellPtyLoop_typed {i : ℕ} {base : List (List UInt8)} :
    ∀ (fuel : ℕ) {s : Sys} {t : EditedLines UInt8} {sent : List UInt8}, PtyHolds i s.ptys sent →
      ShellAt base s t → sent.length < fuel → (∀ c ∈ sent, SentByte c) →
      FoldAlong (EditedLines.feed keyKind) ShellRoom t sent →
      PtyHolds i (shellPtyLoop i fuel s).ptys [] ∧
        ShellAt base (shellPtyLoop i fuel s) (EditedLines.feedAll keyKind t sent) ∧
        ShellFrame { s with ptys := (shellPtyLoop i fuel s).ptys } (shellPtyLoop i fuel s) := by
  intro fuel
  induction fuel with
  | zero => exact fun _ _ hlen => absurd hlen (Nat.not_lt_zero _)
  | succ fuel ih =>
    intro s t sent hp hs hlen hsent hroom
    obtain ⟨hchunk, hp'⟩ := ptySlaveRead_holds hp 128
    rw [shellPtyLoop, hchunk]
    cases sent with
    | nil =>
      rw [List.take_nil, if_pos List.length_nil]
      exact ⟨hp', ⟨hs.executed, hs.line⟩, .refl _⟩
    | cons c cs =>
      set sent := c :: cs with hsent'
      have hsplit := List.take_append_drop 128 sent
      rw [← hsplit] at hroom
      obtain ⟨hchunk', hframe⟩ := shellBytes_typed (sent.take 128)
        (s := { s with ptys := (ptySlaveRead s.ptys i true 128).1 }) ⟨hs.executed, hs.line⟩
        (fun c hc => hsent c (List.mem_of_mem_take hc)) (hroom.restrict (List.prefix_append ..))
      have hdrop : (sent.drop 128).length < fuel := by
        rw [List.length_drop]
        rw [hsent', List.length_cons] at hlen ⊢
        omega
      rw [if_neg (by simp [hsent'])]
      obtain ⟨hp₁, hs₁, hf₁⟩ := ih (hframe.ptys ▸ hp') hchunk' hdrop
        (fun c hc => hsent c (List.mem_of_mem_drop hc)) hroom.right
      rw [← EditedLines.feedAll_append, hsplit] at hs₁
      exact ⟨hp₁, hs₁, hf₁.kbd.trans hframe.kbd, rfl, hf₁.sessions.trans hframe.sessions,
        hf₁.tty.trans hframe.tty⟩

/-! ## One poll -/

/-- A batch of bytes arrives at the keyboard queue, then the shell polls. No byte arrives inside
the call, so a session is a sequence of these. -/
def typeAndPoll (s : Sys) (batch : List UInt8) : Sys :=
  shellPoll { s with kbd := kbdEmitSequence s.kbd batch }

/-- The state between two polls: what is complete has been executed, what is
pending is in the line buffer, and every queue is empty. -/
structure AtRest (i : ℕ) (base : List (List UInt8)) (s : Sys) (t : EditedLines UInt8) :
    Prop where
  /-- the keyboard queue is empty -/
  kbd : KbdHolds s.kbd []
  /-- the TTY holds the pending line, and the PTY nothing -/
  tty : TtyAt i s t.pending []
  /-- the shell reads the PTY that the TTY writes -/
  session : sessionActivePty s.sessions = i
  /-- the shell has executed the rest -/
  shell : ShellAt base s ⟨t.done, []⟩
  /-- what is pending is data -/
  data : ∀ byte ∈ t.pending, DataByte byte

/-- What typed text may look like at any point: the pending line is within 510
bytes, and complete lines suit the shell. -/
structure Typable (t : EditedLines UInt8) : Prop where
  /-- edited length while typing -/
  pending : t.pending.length ≤ 510
  /-- final length -/
  done : ∀ line ∈ t.done, line.length < shellLineMax
  /-- commands that only print -/
  noSelftest : ∀ line ∈ t.done, ¬IsSelftest line

/-- A batch adds at most its own length to what is pending. -/
theorem size_batch_le (pending batch : List UInt8) :
    EditedLines.size 0x0A (EditedLines.feedAll keyKind ⟨[], pending⟩ batch) ≤
      pending.length + batch.length := by
  have hsize := EditedLines.size_feedAll_le keyKind 0x0A batch ⟨[], pending⟩
  have hzero : EditedLines.size 0x0A (⟨[], pending⟩ : EditedLines UInt8) = pending.length :=
    Nat.zero_add _
  rwa [hzero] at hsize

/-- A batch leaves the buffers of the TTY and its PTY room at every moment. -/
theorem ttyRoom_batch {t : EditedLines UInt8} {batch : List UInt8} (hlen : batch.length ≤ 1023)
    (h : FoldAlong (EditedLines.feed keyKind) Typable t batch) :
    FoldAlong (EditedLines.feed keyKind) TtyRoom ⟨[], t.pending⟩ batch := by
  intro p hp
  have hpending := (h p hp).pending
  have hstart := h.start.pending
  have hsize := size_batch_le t.pending p
  have hple := hp.length_le
  change (EditedLines.feedAll keyKind ⟨t.done, t.pending⟩ p).pending.length ≤ 510 at hpending
  rw [EditedLines.feedAll_done] at hpending
  refine ⟨?_, ?_⟩
  · change (EditedLines.feedAll keyKind ⟨[], t.pending⟩ p).pending.length + 1 < 512
    exact Nat.lt_of_le_of_lt (Nat.succ_le_succ hpending) (by decide)
  · change EditedLines.size 0x0A (EditedLines.feedAll keyKind ⟨[], t.pending⟩ p) + 1 < 2048
    omega

/-- Lines that suit the shell leave it room at every moment. -/
theorem shellRoom_lines {done lines : List (List UInt8)}
    (hdata : ∀ line ∈ lines, ∀ byte ∈ line, DataByte byte)
    (hlen : ∀ line ∈ lines, line.length < shellLineMax)
    (hself : ∀ line ∈ done ++ lines, ¬IsSelftest line) :
    FoldAlong (EditedLines.feed keyKind) ShellRoom ⟨done, []⟩ (EditedLines.stream 0x0A lines) := by
  intro p hp
  obtain ⟨n, q, hq, hfeed⟩ := EditedLines.feedAll_prefix_data (rfl : keyKind 0x0A = .newline)
    (fun line hl byte hb => (hdata line hl byte hb).keyKind) hp done
  change ShellRoom (EditedLines.feedAll keyKind ⟨done, []⟩ p)
  rw [hfeed]
  refine ⟨?_, fun b hb => ?_, fun line hl => hself line ?_⟩
  · refine Nat.lt_of_le_of_lt hq.length_le ?_
    rcases EditedLines.getD_nil_cases lines n with hn | hn
    · rw [hn]
      decide
    · exact hlen _ hn
  · exact (EditedLines.forall_mem_getD hdata n b (hq.mem hb)).ne (by decide)
  · rcases List.mem_append.mp hl with hl | hl
    · exact List.mem_append_left _ hl
    · exact List.mem_append_right _ (List.mem_of_mem_take hl)

/-- What the line discipline sends of lines of data. -/
theorem sentByte_stream {lines : List (List UInt8)}
    (h : ∀ line ∈ lines, ∀ byte ∈ line, DataByte byte) :
    ∀ byte ∈ EditedLines.stream 0x0A lines, SentByte byte := by
  intro byte hb
  obtain ⟨line, hl, hb⟩ := List.mem_flatMap.mp hb
  rcases List.mem_append.mp hb with hb | hb
  · exact Or.inr (h line hl byte hb)
  · exact Or.inl (List.mem_singleton.mp hb)

/-- The shell's loop has more fuel than one batch can complete lines. -/
theorem length_stream_batch_lt {pending batch : List UInt8} (hpending : pending.length ≤ 510)
    (hlen : batch.length ≤ 1023) :
    (EditedLines.stream 0x0A (EditedLines.feedAll keyKind ⟨[], pending⟩ batch).done).length <
      shellFuel := by
  have hle : (EditedLines.stream 0x0A
      (EditedLines.feedAll keyKind ⟨[], pending⟩ batch).done).length ≤ pending.length + batch.length :=
    (Nat.le_add_right _ _).trans (size_batch_le pending batch)
  exact Nat.lt_of_le_of_lt (hle.trans (Nat.add_le_add hpending hlen)) (by decide)

/-- Lines of data arrive as they were sent. -/
theorem feedAll_stream_data {lines : List (List UInt8)}
    (h : ∀ line ∈ lines, ∀ byte ∈ line, DataByte byte) (done : List (List UInt8)) :
    EditedLines.feedAll keyKind ⟨done, []⟩ (EditedLines.stream 0x0A lines) =
      ⟨done ++ lines, []⟩ := by
  have hkind : ∀ line ∈ lines, ∀ byte ∈ line, keyKind byte = .data :=
    fun line hl byte hb => (h line hl byte hb).keyKind
  rw [EditedLines.feedAll_stream rfl fun line hl byte hb => by simp [hkind line hl byte hb],
    List.map_congr_left fun line hl => EditedLines.editLine_data (hkind line hl), List.map_id']

/-- **One poll** takes a batch in completely and comes to rest. It is the step of the run: the
same state of rest holds before it and behind it, with the batch fed to the edited lines. -/
theorem typeAndPoll_typed {i : ℕ} {base : List (List UInt8)} {s : Sys} {t : EditedLines UInt8}
    (h : AtRest i base s t) {batch : List UInt8} (hlen : batch.length ≤ 1023)
    (htext : ∀ byte ∈ batch, TextByte byte)
    (htyp : FoldAlong (EditedLines.feed keyKind) Typable t batch) :
    AtRest i base (typeAndPoll s batch) (EditedLines.feedAll keyKind t batch) := by
  have hk : KbdHolds (kbdEmitSequence s.kbd batch) batch :=
    kbdEmitSequence_holds h.kbd (Nat.lt_of_le_of_lt hlen (by decide))
  have hheld : TtyHolds i { s with kbd := kbdEmitSequence s.kbd batch } ⟨[], t.pending⟩ :=
    ⟨h.tty.canonical, h.tty.escape, h.tty.attached, h.tty.valid, h.tty.ptys, h.tty.line,
      h.tty.sent, h.tty.ttyDrops, h.tty.ptyDrops⟩
  obtain ⟨hk₁, ht₁, hf₁⟩ := ttyPollLoop_typed kbdByteQueueSize hk hheld
    (Nat.lt_of_le_of_lt hlen (by decide)) htext (ttyRoom_batch hlen htyp)
  -- the TTY's part is done: `s₁` holds the lines of the batch in the PTY
  rw [typeAndPoll, shellPoll, ttyPollInput]
  set s₁ := ttyPollLoop kbdByteQueueSize { s with kbd := kbdEmitSequence s.kbd batch }
  set u := EditedLines.feedAll keyKind ⟨[], t.pending⟩ batch with hu
  have hfed : EditedLines.feedAll keyKind t batch = ⟨t.done ++ u.done, u.pending⟩ :=
    EditedLines.feedAll_done t.done t.pending batch
  have hdata : EditedLines.AllOf DataByte u :=
    EditedLines.AllOf.feedAll (t := ⟨[], t.pending⟩) ⟨by simp, h.data⟩ htext
  have hend := htyp.finish
  change Typable (EditedLines.feedAll keyKind t batch) at hend
  rw [hfed] at hend
  have hsession : sessionActivePty s₁.sessions = i := by
    rw [hf₁.sessions]
    exact h.session
  have hs₁ : ShellAt base s₁ ⟨t.done, []⟩ :=
    ⟨hf₁.executed.trans h.shell.executed, (congrArg Shell.line hf₁.shell).trans h.shell.line⟩
  obtain ⟨hp₂, hs₂, hf₂⟩ := shellPtyLoop_typed shellFuel
    ⟨ht₁.valid, ht₁.ptys, ht₁.sent, ht₁.ptyDrops⟩ hs₁
    (length_stream_batch_lt htyp.start.pending hlen) (sentByte_stream hdata.done)
    (shellRoom_lines hdata.done
      (fun line hl => hend.done line (List.mem_append_right _ hl)) hend.noSelftest)
  rw [feedAll_stream_data hdata.done] at hs₂
  rw [hsession, if_pos (Int.natCast_nonneg i), hfed]
  refine ⟨hf₂.kbd ▸ hk₁, ?_, hf₂.sessions ▸ hsession, hs₂, hdata.pending⟩
  refine ⟨?_, ?_, ?_, hp₂.valid, hp₂.ok, ?_, hp₂.sent, ?_, hp₂.drops⟩
  · exact (congrArg Tty.ttyCanonical hf₂.tty).trans ht₁.canonical
  · exact (congrArg Tty.ttyEscapeState hf₂.tty).trans ht₁.escape
  · exact (congrArg Tty.ttySessionPty hf₂.tty).trans ht₁.attached
  · exact (congrArg Tty.ttyLine hf₂.tty).trans ht₁.line
  · exact (congrArg Tty.ttyDropCount hf₂.tty).trans ht₁.ttyDrops

/-- Any number of polls: where the batches are cut makes no difference. -/
theorem typeAndPolls_typed {i : ℕ} {base : List (List UInt8)} {batches : List (List UInt8)} :
    ∀ {s : Sys} {t : EditedLines UInt8}, AtRest i base s t →
      (∀ batch ∈ batches, batch.length ≤ 1023) → (∀ byte ∈ batches.flatten, TextByte byte) →
      FoldAlong (EditedLines.feed keyKind) Typable t batches.flatten →
      AtRest i base (batches.foldl typeAndPoll s)
        (EditedLines.feedAll keyKind t batches.flatten) := by
  induction batches with
  | nil => exact fun h _ _ _ => h
  | cons batch batches ih =>
    intro s t h hlen htext htyp
    obtain ⟨hbatch, hbatches⟩ := List.forall_mem_cons.mp hlen
    rw [List.flatten_cons] at htext htyp ⊢
    rw [EditedLines.feedAll_append]
    exact ih
      (typeAndPoll_typed h hbatch (fun b hb => htext b (List.mem_append_left _ hb))
        (htyp.restrict (List.prefix_append ..)))
      hbatches (fun b hb => htext b (List.mem_append_right _ hb)) htyp.right

/-! ## From boot -/

/-- What `kernel_main` sets up is at rest on PTY 0, with nothing typed. -/
theorem kernelInput_atRest (s : Sys) :
    AtRest 0 (executed s.calls) (kernelInput s) ⟨[], []⟩ := by
  have hsession : (sessionCreate sessionInit 1).2 = 1 := rfl
  have hpty : (ptyAlloc ptyInit).2 = 0 := rfl
  have hset : (sessionSetControllingPty (sessionCreate sessionInit 1).1 (ptyAlloc ptyInit).1
      1 0).2 = true := by decide
  have hactive : (sessionSetActive (sessionSetControllingPty (sessionCreate sessionInit 1).1
      (ptyAlloc ptyInit).1 1 0).1 1).2 = true := by decide
  have hvalid : ptyIsValid (ptyAlloc ptyInit).1 0 = true := by decide
  have hread : sessionActivePty (sessionSetActive (sessionSetControllingPty
      (sessionCreate sessionInit 1).1 (ptyAlloc ptyInit).1 1 0).1 1).1 = 0 := by decide
  have hprints : ∀ (u : Sys) (cs : List Call), executed cs = [] →
      executed (u.emit cs).calls = executed u.calls := fun u cs hcs => by
    rw [Sys.emit, executed_append, hcs, List.append_nil]
  obtain ⟨hok, hq, hd⟩ := ptyAlloc_spec ptyInit_ok
  rw [kernelInput]
  dsimp only
  rw [hsession, hpty, if_neg (by decide), hset, if_neg (by decide), hactive, if_neg (by decide)]
  refine ⟨⟨?_, ?_, rfl⟩, ⟨rfl, rfl, rfl, hvalid, hok, rfl, ?_, rfl, hd⟩, hread, ⟨?_, rfl⟩,
    fun _ hb => absurd hb List.not_mem_nil⟩
  · exact SlotRing.inRange_zero (by decide) _
  · exact SlotRing.contents_zero _ _
  · exact (hq 0 .m2s).trans (queued_ptyInit 0 .m2s)
  · exact (hprints _ _ rfl).trans ((hprints _ _ rfl).trans
      ((hprints _ _ rfl).trans (List.append_nil _).symm))

/-- A line as it is typed, without its newline: data and erase bytes, at most 510 left at any
moment, and in the end at most 127, which are not `selftest`. The first bound is that of the line
buffer and the second that of the shell, which is smaller and counts only when the line is
complete. -/
structure TypedLine (keys : List UInt8) : Prop where
  /-- the alphabet -/
  bytes : ∀ byte ∈ keys, DataByte byte ∨ byte = 0x08 ∨ byte = 0x7F
  /-- while typing -/
  pending : ∀ p, p <+: keys → (EditedLines.editLine keyKind p).length ≤ 510
  /-- at the end -/
  final : (EditedLines.editLine keyKind keys).length ≤ 127
  /-- a command that only prints -/
  noSelftest : ¬IsSelftest (EditedLines.editLine keyKind keys)

theorem TypedLine.not_newline {keys : List UInt8} (h : TypedLine keys) :
    ∀ key ∈ keys, keyKind key ≠ .newline := by
  intro key hk
  rcases h.bytes key hk with hd | hd
  · rw [hd.keyKind]
    decide
  · rw [keyKind_erase.mpr hd]
    decide

/-- Text of typed lines is typable up to every point. -/
theorem typable_stream {lines : List (List UInt8)} (hl : ∀ line ∈ lines, TypedLine line) :
    FoldAlong (EditedLines.feed keyKind) Typable ⟨[], []⟩ (EditedLines.stream 0x0A lines) := by
  intro p hp
  obtain ⟨q, hq, hfeed⟩ := EditedLines.feedAll_prefix (fun _ => keyKind_newline)
    (fun line h => (hl line h).not_newline) hp
  change Typable (EditedLines.feedAll keyKind ⟨[], []⟩ p)
  rw [hfeed]
  refine ⟨?_, fun line h => ?_, fun line h => ?_⟩
  · rcases EditedLines.getD_nil_cases lines (p.count 0x0A) with hn | hn
    · rw [hn, List.prefix_nil] at hq
      rw [hq]
      exact Nat.zero_le _
    · exact (hl _ hn).pending q hq
  · obtain ⟨keys, hk, rfl⟩ := List.mem_map.mp h
    exact Nat.lt_succ_of_le (hl keys (List.mem_of_mem_take hk)).final
  · obtain ⟨keys, hk, rfl⟩ := List.mem_map.mp h
    exact (hl keys (List.mem_of_mem_take hk)).noSelftest

/-- **Every typed line is executed once, in order, as its erase keys left it**,
wherever the batches are cut, and no buffer drops a byte. -/
theorem typeAndPolls_executed (s : Sys) (lines batches : List (List UInt8))
    (hlines : ∀ line ∈ lines, TypedLine line)
    (hbatches : ∀ batch ∈ batches, batch.length ≤ 1023)
    (hcut : batches.flatten <+: EditedLines.stream 0x0A lines) :
    let s' := batches.foldl typeAndPoll (kernelInput s)
    executed s'.calls = executed s.calls ++
        (lines.take (batches.flatten.count 0x0A)).map (EditedLines.editLine keyKind) ∧
      (batches.flatten = EditedLines.stream 0x0A lines →
        executed s'.calls = executed s.calls ++ lines.map (EditedLines.editLine keyKind)) ∧
      s'.kbd.kbdByteQueue.dropCount = 0 ∧ s'.tty.ttyDropCount = 0 ∧
        s'.ptys.gPtyDroppedBytes = 0 := by
  have hnl : ∀ line ∈ lines, ∀ key ∈ line, keyKind key ≠ .newline :=
    fun line h => (hlines line h).not_newline
  have htext : ∀ byte ∈ batches.flatten, TextByte byte := by
    intro byte hb hdata
    obtain ⟨line, hl, hm⟩ := List.mem_flatMap.mp (hcut.mem hb)
    rcases List.mem_append.mp hm with hm | hm
    · rcases (hlines line hl).bytes byte hm with h | h
      · exact h
      · rw [keyKind_erase.mpr h] at hdata
        cases hdata
    · rw [List.mem_singleton.mp hm] at hdata
      cases hdata
  have hrest := typeAndPolls_typed (kernelInput_atRest s) hbatches htext
    ((typable_stream hlines).restrict hcut)
  obtain ⟨q, -, hfeed⟩ := EditedLines.feedAll_prefix (fun _ => keyKind_newline) hnl hcut
  have hexec := hrest.shell.executed
  rw [hfeed] at hexec
  refine ⟨hexec, fun hall => ?_, hrest.kbd.drops, hrest.tty.ttyDrops, hrest.tty.ptyDrops⟩
  rw [hexec, hall, EditedLines.count_stream (fun _ => keyKind_newline) hnl, List.take_length]

/-- `hx`, an erase and `i`, cut inside the line, run the command `hi`. -/
theorem typeAndPolls_executed_hi :
    executed (([text "hx", [0x08, 0x69, 0x0A]] : List (List UInt8)).foldl typeAndPoll
      (kernelInput sysZero)).calls = [text "hi"] := by
  have hline : TypedLine [0x68, 0x78, 0x08, 0x69] := by
    have hbytes : [0x68, 0x78, 0x08, 0x69].all
        (fun byte => decide (DataByte byte ∨ byte = 0x08 ∨ byte = 0x7F)) = true := by decide
    refine ⟨fun byte hb => of_decide_eq_true (List.all_eq_true.mp hbytes byte hb),
      fun p hp => ?_, by decide, by decide⟩
    have hall : ∀ p ∈ List.inits [0x68, 0x78, 0x08, 0x69],
        (EditedLines.editLine keyKind p).length ≤ 510 := by decide
    exact hall p ((List.mem_inits ..).mpr hp)
  have h := typeAndPolls_executed sysZero [[0x68, 0x78, 0x08, 0x69]]
    [text "hx", [0x08, 0x69, 0x0A]] (by simpa using hline) (by decide) (by decide)
  exact (h.2.1 (by decide)).trans (by decide)

end WaluOs
