import WaluOs.EditedLines
import WaluOs.KeyboardQueues
import WaluOs.Tty

/-!
# The canonical line discipline

In canonical mode the TTY is a line editor in front of a PTY: keys edit
`tty_line_buffer`, and a newline sends the line to the master side. `TtyAt` ties
the state to what has been typed (`EditedLines`): the line buffer is the pending
line, and the master-to-slave queue is the stream of the complete ones.

No key is lost as long as the pending line leaves room in its buffer and the
whole of it leaves room in the queue (`ttyReceive_typed`). What the TTY does not
touch, and that it never runs a command, holds without any condition (`Frame`).
-/

namespace WaluOs

/-! ## Keys -/

/-- What a keyboard byte does to a line in canonical mode, if no escape sequence is open and the
byte is none of the signal keys. -/
def keyKind (byte : UInt8) : KeyKind :=
  if byte = 0x0A then .newline else if byte = 0x08 ∨ byte = 0x7F then .erase else .data

/-- A byte that reaches the line: printable, or a tab. -/
def DataByte (byte : UInt8) : Prop := (0x20 ≤ byte ∧ byte ≠ 0x7F) ∨ byte = 0x09

instance (byte : UInt8) : Decidable (DataByte byte) :=
  inferInstanceAs (Decidable ((0x20 ≤ byte ∧ byte ≠ 0x7F) ∨ byte = 0x09))

/-- What `shell_poll` keeps of a line: neither a control character nor DEL, or a tab. -/
theorem dataByte_iff {c : UInt8} : DataByte c ↔ ¬((c < 0x20 ∨ c = 0x7F) ∧ c ≠ 0x09) := by
  rw [DataByte, not_and_or, not_or, UInt8.not_lt, not_not]

/-- A byte of typed text: data, erase or newline. -/
def TextByte (byte : UInt8) : Prop := keyKind byte = .data → DataByte byte

theorem keyKind_newline {byte : UInt8} : keyKind byte = .newline ↔ byte = 0x0A := by
  unfold keyKind
  split_ifs <;> simp_all

theorem keyKind_erase {byte : UInt8} :
    keyKind byte = .erase ↔ byte = 0x08 ∨ byte = 0x7F := by
  unfold keyKind
  split_ifs with hn he
  · rw [hn]
    decide
  · simp [he]
  · simp [he]

/-- A data byte is none of the bytes that are not. -/
theorem DataByte.ne {b c : UInt8} (hb : DataByte b) (hc : ¬DataByte c) : b ≠ c := by
  rintro rfl
  exact hc hb

theorem DataByte.keyKind {b : UInt8} (hb : DataByte b) : keyKind b = .data := by
  rw [WaluOs.keyKind, if_neg (hb.ne (by decide)),
    if_neg (not_or.mpr ⟨hb.ne (by decide), hb.ne (by decide)⟩)]

theorem DataByte.isPrintable {b : UInt8} (hb : DataByte b) : ttyIsPrintable b = true := by
  rcases hb with ⟨h, -⟩ | h
  · simp [ttyIsPrintable, h]
  · simp [ttyIsPrintable, h]

/-! ## What the TTY leaves alone -/

/-- The commands a trace has executed. `execute_command` is the only thing a typed line leads to,
so this is what a shell has done with its input. -/
def executed (calls : List Call) : List (List UInt8) :=
  calls.filterMap fun
    | .executeCommand line => some line
    | _ => none

@[simp] theorem executed_append (xs ys : List Call) :
    executed (xs ++ ys) = executed xs ++ executed ys :=
  List.filterMap_append

/-- Neither a command nor a push to the history: what is written to the console. -/
def Call.IsOutput : Call → Bool
  | .rustHistoryPush _ => false
  | .executeCommand _ => false
  | .consolePutc _ => true
  | .consoleWrite _ => true
  | .consoleWriteDec _ => true
  | .consoleWriteHex _ => true
  | .consoleBackspace => true
  | .consoleClear => true

theorem executed_output {cs : List Call} (h : cs.all Call.IsOutput = true) : executed cs = [] := by
  refine List.filterMap_eq_nil_iff.mpr fun call hcall => ?_
  have houtput := List.all_eq_true.mp h call hcall
  cases call <;> first | rfl | exact absurd houtput Bool.false_ne_true

/-- What neither a received byte nor a command changes: the keyboard, the sessions, the shell
and the commands executed. -/
structure Frame (s s' : Sys) : Prop where
  /-- the keyboard -/
  kbd : s'.kbd = s.kbd
  /-- the sessions -/
  sessions : s'.sessions = s.sessions
  /-- the shell -/
  shell : s'.shell = s.shell
  /-- no command was executed -/
  executed : executed s'.calls = executed s.calls

namespace Frame

theorem refl (s : Sys) : Frame s s := ⟨rfl, rfl, rfl, rfl⟩

theorem trans {s₁ s₂ s₃ : Sys} (h₁ : Frame s₁ s₂) (h₂ : Frame s₂ s₃) : Frame s₁ s₃ :=
  ⟨h₂.kbd.trans h₁.kbd, h₂.sessions.trans h₁.sessions, h₂.shell.trans h₁.shell,
    h₂.executed.trans h₁.executed⟩

/-- Console output is not a command. -/
theorem emit {s s' : Sys} (h : Frame s s') {cs : List Call} (hcs : WaluOs.executed cs = []) :
    Frame s (s'.emit cs) := by
  refine ⟨h.kbd, h.sessions, h.shell, ?_⟩
  rw [Sys.emit, executed_append, hcs, List.append_nil, h.executed]

end Frame

/-- What the receive path never changes. A byte ends in the line buffer or in the queue of the
reader, and its echo on the console: nothing above the TTY learns of it before it reads the queue,
and the PTYs are only written to. -/
structure ReceiveFrame (s s' : Sys) : Prop where
  /-- the keyboard -/
  kbd : s'.kbd = s.kbd
  /-- the sessions -/
  sessions : s'.sessions = s.sessions
  /-- the shell -/
  shell : s'.shell = s.shell
  /-- the history -/
  rustHistoryCount : s'.rustHistoryCount = s.rustHistoryCount
  /-- all calls are echo -/
  output : ∃ cs, cs.all Call.IsOutput = true ∧ s'.calls = s.calls ++ cs
  /-- no PTY is handed out or taken back -/
  valid : ∀ ptyId, ptyIsValid s'.ptys ptyId = ptyIsValid s.ptys ptyId

namespace ReceiveFrame

/-- Only the variables of the TTY have changed. -/
theorem tty (s : Sys) (tty : Tty) : ReceiveFrame s { s with tty := tty } :=
  ⟨rfl, rfl, rfl, rfl, ⟨[], rfl, (List.append_nil _).symm⟩, fun _ => rfl⟩

theorem refl (s : Sys) : ReceiveFrame s s := .tty s s.tty

theorem trans {s₁ s₂ s₃ : Sys} (h₁ : ReceiveFrame s₁ s₂) (h₂ : ReceiveFrame s₂ s₃) :
    ReceiveFrame s₁ s₃ := by
  obtain ⟨xs, hxs, hcalls⟩ := h₁.output
  obtain ⟨ys, hys, hcalls'⟩ := h₂.output
  refine ⟨h₂.kbd.trans h₁.kbd, h₂.sessions.trans h₁.sessions, h₂.shell.trans h₁.shell,
    h₂.rustHistoryCount.trans h₁.rustHistoryCount, ⟨xs ++ ys, ?_, ?_⟩,
    fun i => (h₂.valid i).trans (h₁.valid i)⟩
  · rw [List.all_append, hxs, hys]
    rfl
  · rw [hcalls', hcalls, List.append_assoc]

theorem setTty {s s' : Sys} (h : ReceiveFrame s s') (tty : Tty) :
    ReceiveFrame s { s' with tty := tty } :=
  h.trans (.tty s' tty)

/-- The echo. -/
theorem emit {s s' : Sys} (h : ReceiveFrame s s') {cs : List Call}
    (hcs : cs.all Call.IsOutput = true) : ReceiveFrame s (s'.emit cs) :=
  h.trans ⟨rfl, rfl, rfl, rfl, ⟨cs, hcs, rfl⟩, fun _ => rfl⟩

theorem emit_if {s s' : Sys} (h : ReceiveFrame s s') (b : Bool) {cs : List Call}
    (hcs : cs.all Call.IsOutput = true) : ReceiveFrame s (if b then s'.emit cs else s') := by
  cases b
  · exact h
  · exact h.emit hcs

theorem frame {s s' : Sys} (h : ReceiveFrame s s') : Frame s s' := by
  obtain ⟨cs, hcs, hcalls⟩ := h.output
  refine ⟨h.kbd, h.sessions, h.shell, ?_⟩
  rw [hcalls, executed_append, executed_output hcs, List.append_nil]

end ReceiveFrame

theorem ttyEnqueueRead_frame (s : Sys) (byte : UInt8) :
    ReceiveFrame s (ttyEnqueueRead s byte).1 := by
  have hptys (ptyId : ℤ) : ReceiveFrame s
      { s with ptys := (ptyMasterWrite s.ptys ptyId (some [byte])).1 } :=
    ⟨rfl, rfl, rfl, rfl, ⟨[], rfl, (List.append_nil _).symm⟩, fun _ => ptyIsValid_ptyWrite ..⟩
  rw [ttyEnqueueRead]
  dsimp only
  split_ifs
  · exact hptys _
  · exact (hptys _).setTty _
  · exact .tty s _
  · exact .tty s _

theorem ttyFlushLineBuffer_frame (s : Sys) : ReceiveFrame s (ttyFlushLineBuffer s) := by
  have h := List.foldlRecOn (motive := ReceiveFrame s) s.tty.ttyLine
    (fun s b => (ttyEnqueueRead s b).1) (.refl s)
    fun _ h b _ => h.trans (ttyEnqueueRead_frame _ b)
  exact h.setTty _

theorem ttyHandleEscapeFilter_frame (s : Sys) (byte : UInt8) :
    ReceiveFrame s (ttyHandleEscapeFilter s byte).1 := by
  unfold ttyHandleEscapeFilter
  dsimp only
  split_ifs <;> exact .tty s _

theorem ttyHandleNewline_frame (s : Sys) : ReceiveFrame s (ttyHandleNewline s) := by
  rw [ttyHandleNewline]
  dsimp only
  refine ReceiveFrame.setTty (.trans (.emit_if ?_ _ rfl) (ttyFlushLineBuffer_frame _)) _
  split_ifs <;> exact .tty s _

theorem ttyHandleData_frame (s : Sys) (byte : UInt8) : ReceiveFrame s (ttyHandleData s byte) := by
  rw [ttyHandleData]
  dsimp only
  split
  · exact ReceiveFrame.setTty (.emit_if (.tty s _) _ rfl) _
  · exact ReceiveFrame.emit_if (.tty s _) _ rfl

theorem ttyHandleCanonical_frame (s : Sys) (byte : UInt8) :
    ReceiveFrame s (ttyHandleCanonical s byte) := by
  have hfilter := ttyHandleEscapeFilter_frame s byte
  rw [ttyHandleCanonical]
  dsimp only
  split_ifs
  · exact hfilter
  · exact ((hfilter.setTty _).trans (ttyEnqueueRead_frame _ _)).emit rfl
  · exact (hfilter.setTty _).trans (ttyEnqueueRead_frame _ _)
  · exact hfilter.trans (ttyEnqueueRead_frame _ _)
  · exact (hfilter.setTty _).emit rfl
  · exact hfilter.setTty _
  · exact hfilter
  · exact hfilter.trans (ttyHandleNewline_frame _)
  · exact hfilter.trans (ttyEnqueueRead_frame _ _)
  · exact hfilter.trans (ttyFlushLineBuffer_frame _)
  · exact hfilter
  · exact hfilter.trans (ttyHandleData_frame _ _)

theorem ttyReceive_receiveFrame (s : Sys) (byte : UInt8) : ReceiveFrame s (ttyReceive s byte) := by
  have hcount := ReceiveFrame.tty s { s.tty with ttyRxCount := s.tty.ttyRxCount + 1 }
  rw [ttyReceive]
  dsimp only
  split
  · exact hcount.trans (ttyHandleCanonical_frame _ _)
  · exact ReceiveFrame.emit_if (hcount.trans (ttyEnqueueRead_frame _ _)) _ rfl

theorem ttyReceive_frame (s : Sys) (byte : UInt8) : Frame s (ttyReceive s byte) :=
  (ttyReceive_receiveFrame s byte).frame

/-! ## Typing into the line buffer -/

/-- The TTY reads canonically for PTY `i`, holds `line` and has sent `sent`, and nothing has been
dropped. The four arguments determine all that the next key does. -/
structure TtyAt (i : ℕ) (s : Sys) (line sent : List UInt8) : Prop where
  /-- canonical mode -/
  canonical : s.tty.ttyCanonical = true
  /-- no escape sequence is being discarded -/
  escape : s.tty.ttyEscapeState = 0
  /-- attached to `i` -/
  attached : s.tty.ttySessionPty = i
  /-- which is allocated -/
  valid : ptyIsValid s.ptys i = true
  /-- PTY table invariant -/
  ptys : s.ptys.Ok
  /-- the line buffer -/
  line : s.tty.ttyLine = line
  /-- the queue to the slave -/
  sent : s.ptys.queued i .m2s = sent
  /-- no drops in the TTY -/
  ttyDrops : s.tty.ttyDropCount = 0
  /-- no drops in the PTYs -/
  ptyDrops : s.ptys.gPtyDroppedBytes = 0

namespace TtyAt

variable {i : ℕ} {s : Sys} {line sent : List UInt8}

theorem setLine (h : TtyAt i s line sent) (line' : List UInt8) :
    TtyAt i { s with tty.ttyLine := line' } line' sent :=
  ⟨h.canonical, h.escape, h.attached, h.valid, h.ptys, rfl, h.sent, h.ttyDrops, h.ptyDrops⟩

theorem emit_if (h : TtyAt i s line sent) (b : Bool) (cs : List Call) :
    TtyAt i (if b then s.emit cs else s) line sent := by
  cases b <;>
    exact ⟨h.canonical, h.escape, h.attached, h.valid, h.ptys, h.line, h.sent, h.ttyDrops,
      h.ptyDrops⟩

/-- A byte goes to the PTY while its queue has room. -/
theorem enqueueRead (h : TtyAt i s line sent) (hroom : sent.length + 1 < ptyQueueSize)
    (byte : UInt8) : TtyAt i (ttyEnqueueRead s byte).1 line (sent ++ [byte]) := by
  obtain ⟨hok, hq, hn, hd⟩ := ptyWrite_spec h.ptys h.valid .m2s [byte]
  have hacc : (ptyWrite .m2s s.ptys i (some [byte])).2 = 1 := by
    rw [hn, h.sent, List.length_singleton]
    omega
  rw [ttyEnqueueRead, h.attached, if_pos ⟨by omega, h.valid⟩]
  dsimp only
  rw [ptyMasterWrite, if_pos hacc]
  refine ⟨h.canonical, h.escape, h.attached, ?_, hok, h.line, ?_, h.ttyDrops, ?_⟩
  · exact (ptyIsValid_ptyWrite ..).trans h.valid
  · rw [hq, if_pos ⟨rfl, rfl⟩, hacc, h.sent]
    rfl
  · rw [hd, hacc, h.ptyDrops]
    rfl

/-- Flushing moves the whole line to the PTY. -/
theorem flush (h : TtyAt i s line sent) (hroom : (sent ++ line).length < ptyQueueSize) :
    TtyAt i (ttyFlushLineBuffer s) [] (sent ++ line) := by
  suffices ∀ (bs : List UInt8) (s : Sys) (sent : List UInt8), TtyAt i s line sent →
      (sent ++ bs).length < ptyQueueSize →
      TtyAt i (bs.foldl (fun s b => (ttyEnqueueRead s b).1) s) line (sent ++ bs) by
    rw [ttyFlushLineBuffer, h.line]
    exact (this line s sent h hroom).setLine []
  intro bs
  induction bs with
  | nil =>
    intro s sent h _
    rwa [List.append_nil]
  | cons b bs ih =>
    intro s sent h hroom
    rw [List.append_cons] at hroom ⊢
    refine ih _ _ (h.enqueueRead ?_ b) hroom
    rw [List.length_append, List.length_append, List.length_singleton] at hroom
    omega

end TtyAt

/-- The escape filter lets a byte of typed text through. -/
theorem ttyHandleEscapeFilter_text {s : Sys} (h : s.tty.ttyEscapeState = 0) {byte : UInt8}
    (hb : byte ≠ 0x1B) : ttyHandleEscapeFilter s byte = (s, false) := by
  rw [ttyHandleEscapeFilter, if_pos h, if_neg hb]

/-- The sum of what the two buffers hold is the size of what was typed. -/
abbrev typedSize (t : EditedLines UInt8) : ℕ := EditedLines.size 0x0A t

/-- A TTY that holds what was typed. -/
abbrev TtyHolds (i : ℕ) (s : Sys) (t : EditedLines UInt8) : Prop :=
  TtyAt i s t.pending (EditedLines.stream 0x0A t.done)

/-- The room typing needs: the pending line leaves a place for its newline, and everything fits
the PTY queue. As long as it holds nothing is dropped. -/
structure TtyRoom (t : EditedLines UInt8) : Prop where
  /-- in the line buffer -/
  line : t.pending.length + 1 < ttyLineBufferSize
  /-- in the PTY queue -/
  queue : typedSize t + 1 < ptyQueueSize

/-- A newline sends the pending line. -/
theorem ttyHandleNewline_typed {i : ℕ} {s : Sys} {t : EditedLines UInt8} (h : TtyHolds i s t)
    (hroom : TtyRoom t) :
    TtyHolds i (ttyHandleNewline s) (EditedLines.feed keyKind t 0x0A) := by
  have hsize := hroom.queue
  rw [typedSize, EditedLines.size] at hsize
  rw [ttyHandleNewline, EditedLines.feed_newline rfl, TtyHolds, EditedLines.stream_append]
  have hline := hroom.line
  rw [← h.line] at hline
  rw [if_pos hline]
  have hline' := h.setLine (s.tty.ttyLine ++ [0x0A])
  rw [h.line] at hline' ⊢
  have hflush := (hline'.emit_if s.tty.ttyEcho [.consolePutc 0x0A]).flush (by simp; omega)
  rw [show EditedLines.stream 0x0A [t.pending] = t.pending ++ [0x0A] by simp]
  exact ⟨hflush.canonical, hflush.escape, hflush.attached, hflush.valid, hflush.ptys, hflush.line,
    hflush.sent, hflush.ttyDrops, hflush.ptyDrops⟩

/-- A data byte joins the pending line. -/
theorem ttyHandleData_typed {i : ℕ} {s : Sys} {t : EditedLines UInt8} (h : TtyHolds i s t)
    (hroom : TtyRoom t) {byte : UInt8} (hb : DataByte byte) :
    TtyHolds i (ttyHandleData s byte) (EditedLines.feed keyKind t byte) := by
  have hline := hroom.line
  rw [← h.line] at hline
  rw [ttyHandleData, if_neg (by omega), EditedLines.feed_data hb.keyKind]
  rw [h.line]
  exact (h.setLine (t.pending ++ [byte])).emit_if _ _

/-- One byte of typed text: the TTY goes on holding what was typed. -/
theorem ttyReceive_typed {i : ℕ} {s : Sys} {t : EditedLines UInt8} (h : TtyHolds i s t)
    (hroom : TtyRoom t) {byte : UInt8} (hb : TextByte byte) :
    TtyHolds i (ttyReceive s byte) (EditedLines.feed keyKind t byte) := by
  set s₁ : Sys := { s with tty.ttyRxCount := s.tty.ttyRxCount + 1 } with hs₁
  have h₁ : TtyHolds i s₁ t :=
    ⟨h.canonical, h.escape, h.attached, h.valid, h.ptys, h.line, h.sent, h.ttyDrops, h.ptyDrops⟩
  rw [ttyReceive, ← hs₁, if_pos h₁.canonical, ttyHandleCanonical]
  cases hk : keyKind byte with
  | newline =>
    obtain rfl := keyKind_newline.mp hk
    rw [ttyHandleEscapeFilter_text h₁.escape (by decide)]
    exact ttyHandleNewline_typed h₁ hroom
  | erase =>
    have hbyte := keyKind_erase.mp hk
    have hne : byte ≠ 0x1B ∧ byte ≠ 0x03 ∧ byte ≠ 0x0C := by
      rcases hbyte with rfl | rfl <;> decide
    rw [ttyHandleEscapeFilter_text h₁.escape hne.1, EditedLines.feed_erase hk]
    dsimp only
    rw [if_neg Bool.false_ne_true, if_neg hne.2.1, if_neg hne.2.2, if_pos hbyte, h₁.line]
    split_ifs with hlen
    · exact (h₁.setLine _).emit_if true _
    · exact h₁.setLine _
    · obtain hnil : t.pending = [] := List.length_eq_zero_iff.mp (by omega)
      rw [hnil, List.dropLast_nil, ← hnil]
      exact h₁
  | data =>
    have hd := hb hk
    rw [ttyHandleEscapeFilter_text h₁.escape (hd.ne (by decide))]
    dsimp only
    rw [if_neg Bool.false_ne_true, if_neg (hd.ne (by decide)), if_neg (hd.ne (by decide)),
      if_neg (not_or.mpr ⟨hd.ne (by decide), hd.ne (by decide)⟩), if_neg (hd.ne (by decide)),
      if_neg (hd.ne (by decide)), hd.isPrintable]
    exact ttyHandleData_typed h₁ hroom hd

/-! ## Polling -/

/-- The keyboard queue holds `bytes` and has dropped none, so that what is polled is what was
typed. -/
structure KbdHolds (k : Kbd) (bytes : List UInt8) : Prop where
  /-- indices are in range -/
  inRange : k.kbdByteQueue.ring.InRange kbdByteQueueSize
  /-- the queue -/
  bytes : k.kbdByteQueue.ring.contents kbdByteQueueSize = bytes
  /-- no drops -/
  drops : k.kbdByteQueue.dropCount = 0

theorem keyboardPopChar_none {k : Kbd} (h : KbdHolds k []) : keyboardPopChar k = (k, none) := by
  rw [keyboardPopChar, if_pos (h.inRange.empty_iff.mpr h.bytes)]

theorem keyboardPopChar_some {k : Kbd} {byte : UInt8} {bytes : List UInt8}
    (h : KbdHolds k (byte :: bytes)) :
    ∃ k', keyboardPopChar k = (k', some byte) ∧ KbdHolds k' bytes := by
  have hne : k.kbdByteQueue.ring.tail ≠ k.kbdByteQueue.ring.head := fun he => by
    simpa [h.bytes] using h.inRange.empty_iff.mp he
  have hpop := h.inRange.contents_pop hne
  obtain ⟨rfl, rfl⟩ := List.cons.inj (h.bytes.symm.trans hpop)
  rw [keyboardPopChar, if_neg hne]
  exact ⟨_, rfl, h.inRange.pop, rfl, h.drops⟩

/-- Bytes that fit are all queued. -/
theorem kbdEmitSequence_holds {seq : List UInt8} :
    ∀ {k : Kbd} {bytes : List UInt8}, KbdHolds k bytes →
      (bytes ++ seq).length < kbdByteQueueSize →
      KbdHolds (kbdEmitSequence k seq) (bytes ++ seq) := by
  induction seq with
  | nil =>
    intro k bytes h _
    rwa [List.append_nil]
  | cons byte seq ih =>
    intro k bytes h hroom
    have hcount := congrArg List.length h.bytes
    rw [SlotRing.length_contents] at hcount
    rw [List.append_cons] at hroom ⊢
    have hfull : (k.kbdByteQueue.ring.head + 1) % kbdByteQueueSize ≠ k.kbdByteQueue.ring.tail := by
      refine mt h.inRange.full_iff.mp ?_
      rw [List.length_append, List.length_append, List.length_singleton] at hroom
      omega
    refine ih (k := kbdPushByte k byte) ?_ hroom
    rw [kbdPushByte, kbdPush_push hfull]
    exact ⟨h.inRange.push byte, by rw [h.inRange.contents_push hfull, h.bytes], h.drops⟩

/-- Typed text goes from the keyboard queue through the line buffer. The induction is on the fuel,
with one byte of the queue for each round; what the loop does not write is in `Frame`. -/
theorem ttyPollLoop_typed {i : ℕ} :
    ∀ (fuel : ℕ) {s : Sys} {t : EditedLines UInt8} {bytes : List UInt8}, KbdHolds s.kbd bytes →
      TtyHolds i s t → bytes.length < fuel → (∀ byte ∈ bytes, TextByte byte) →
      FoldAlong (EditedLines.feed keyKind) TtyRoom t bytes →
      KbdHolds (ttyPollLoop fuel s).kbd [] ∧
        TtyHolds i (ttyPollLoop fuel s) (EditedLines.feedAll keyKind t bytes) ∧
        Frame { s with kbd := (ttyPollLoop fuel s).kbd } (ttyPollLoop fuel s) := by
  intro fuel
  induction fuel with
  | zero => exact fun _ _ hlen => absurd hlen (Nat.not_lt_zero _)
  | succ fuel ih =>
    intro s t bytes hk ht hlen htext hroom
    rw [ttyPollLoop]
    cases bytes with
    | nil =>
      rw [keyboardPopChar_none hk]
      exact ⟨hk, ht, .refl s⟩
    | cons byte bytes =>
      obtain ⟨k', hpop, hk'⟩ := keyboardPopChar_some hk
      obtain ⟨hbyte, hbytes⟩ := List.forall_mem_cons.mp htext
      rw [hpop]
      dsimp only
      have hframe := ttyReceive_frame { s with kbd := k' } byte
      have ht' : TtyHolds i { s with kbd := k' } t :=
        ⟨ht.canonical, ht.escape, ht.attached, ht.valid, ht.ptys, ht.line, ht.sent, ht.ttyDrops,
          ht.ptyDrops⟩
      obtain ⟨hkbd, htty, hloop⟩ := ih (hframe.kbd ▸ hk')
        (ttyReceive_typed ht' hroom.start hbyte) (Nat.lt_of_succ_lt_succ hlen) hbytes hroom.tail
      exact ⟨hkbd, htty, rfl, hloop.sessions.trans hframe.sessions,
        hloop.shell.trans hframe.shell, hloop.executed.trans hframe.executed⟩

end WaluOs
