import WaluOs.Mealy
import WaluOs.PtyRuns
import WaluOs.ReaderQueue
import WaluOs.Shell

/-!
# Runs of the TTY

Any order of received bytes, reads, mode changes, attachments and PTY calls, from
`tty_init` and `pty_init` on. Two statements about such runs:

* a completed line is delivered up to the first byte that finds no room, and what
  does not fit is counted byte by byte (`completed_line_delivered`): a line is not
  delivered as a whole or not at all;
* while there is room, every newline that passes the escape filter delivers the line
  and one newline exactly when the line left the newline a place in the line buffer
  (`newlines_framed_iff`): with 511 bytes in the buffer the newline is lost, and the
  line runs into the next one.

Both are about single bytes at a reachable state, so the induction over the run only
has to carry what `TtyOk` says.
-/

namespace WaluOs

/-! ## Byte streams -/

/-- A stream of bytes: where it takes the discipline, and what it delivers. -/
abbrev Discipline.feed (d : Discipline) (bytes : List UInt8) : Discipline × List UInt8 :=
  Mealy.run Discipline.step d bytes

/-- The receive loop makes the steps of the discipline. -/
theorem ttyReceives_received (bytes : List UInt8) :
    ∀ {s : Sys}, ReaderOk s → s.tty.ttyCanonical = true →
      Received s (bytes.foldl ttyReceive s) (s.discipline.feed bytes).1
        (s.discipline.feed bytes).2 := by
  induction bytes with
  | nil => exact fun h _ => .quiet h rfl rfl rfl rfl rfl rfl
  | cons byte bytes ih =>
    intro s h hcanon
    have hone := ttyReceive_received h hcanon byte
    have hrest := ih hone.pushes.ok (hone.canonical.trans hcanon)
    rw [hone.discipline] at hrest
    exact ⟨hone.pushes.trans hrest.pushes, hrest.discipline,
      hrest.canonical.trans hone.canonical, hrest.echo.trans hone.echo⟩

/-! ## Runs -/

/-- What can happen to a TTY. The reader, the modes, the attachment and the PTYs are in other
hands, so these come in any order and with any arguments. -/
inductive TtyOp : Type where
  /-- one round of a receive loop, with this byte -/
  | receive : UInt8 → TtyOp
  /-- `tty_pop_char` -/
  | popChar : TtyOp
  /-- `tty_set_canonical` -/
  | setCanonical : Bool → TtyOp
  /-- `tty_set_echo` -/
  | setEcho : Bool → TtyOp
  /-- `tty_attach_session` -/
  | attachSession : ℤ → ℤ → TtyOp
  /-- one of the PTY calls, by anyone -/
  | pty : PtyOp → TtyOp
  deriving DecidableEq, Repr

/-- Perform one operation, by the function of the source that it stands for. -/
def ttyStep (s : Sys) : TtyOp → Sys
  | .receive byte => ttyReceive s byte
  | .popChar => (ttyPopChar s).1
  | .setCanonical enabled => ttySetCanonical s enabled
  | .setEcho enabled => ttySetEcho s enabled
  | .attachSession sessionId ptyId => ttyAttachSession s sessionId ptyId
  | .pty op => { s with ptys := (ptyStep s.ptys op).1 }

/-- The system right after `tty_init` and `pty_init`, whatever its variables were before. -/
def ttyStart (s : Sys) : Sys := { ttyInit s with ptys := ptyInit }

/-- A run: any operations, from that start. -/
def ttyRun (s : Sys) (ops : List TtyOp) : Sys := ops.foldl ttyStep (ttyStart s)

/-- What holds of a TTY at any time. The line buffer never takes its last place, and since a
newline flushes, none ever stays in it. -/
structure TtyOk (s : Sys) : Prop where
  /-- the queues are sound -/
  reader : ReaderOk s
  /-- one place of the line buffer is never taken -/
  line_lt : s.tty.ttyLine.length < ttyLineBufferSize
  /-- a newline does not stay in the line buffer -/
  noNewline : 0x0A ∉ s.tty.ttyLine

/-- What holds of the discipline at any time, the queues left aside. -/
structure Discipline.Ok (d : Discipline) : Prop where
  /-- one place of the line buffer is never taken -/
  line_lt : d.line.length < ttyLineBufferSize
  /-- a newline does not stay in the line buffer -/
  noNewline : 0x0A ∉ d.line

/-- A byte that passes the filter keeps it. -/
theorem Discipline.Ok.lineStep {d : Discipline} (h : d.Ok) (escape : ℕ) (byte : UInt8) :
    Discipline.Ok ⟨escape, (WaluOs.lineStep d.line byte).1⟩ := by
  have hempty : Discipline.Ok ⟨escape, []⟩ := ⟨Nat.zero_lt_succ _, List.not_mem_nil⟩
  have hsame : Discipline.Ok ⟨escape, d.line⟩ := ⟨h.line_lt, h.noNewline⟩
  rw [WaluOs.lineStep]
  split_ifs with h3 hc he hn _ h4 _ hdata
  · exact hempty
  · exact hsame
  · refine ⟨?_, fun hm => h.noNewline (List.mem_of_mem_dropLast hm)⟩
    exact Nat.lt_of_le_of_lt (List.length_dropLast ▸ Nat.sub_le _ _) h.line_lt
  · exact hempty
  · exact hempty
  · exact hempty
  · exact hempty
  · refine ⟨?_, fun hm => ?_⟩
    · exact (List.length_append.trans (by rw [List.length_singleton])).trans_lt hdata.2
    · rcases List.mem_append.mp hm with hm | hm
      · exact h.noNewline hm
      · exact hn (List.mem_singleton.mp hm).symm
  · exact hsame

/-- So does every byte. -/
theorem Discipline.step_ok {d : Discipline} (h : d.Ok) (byte : UInt8) : (d.step byte).1.Ok := by
  rw [Discipline.step]
  split
  · exact ⟨h.line_lt, h.noNewline⟩
  · exact h.lineStep _ byte

theorem ttyReceive_ok {s : Sys} (h : TtyOk s) (byte : UInt8) : TtyOk (ttyReceive s byte) := by
  cases hcanon : s.tty.ttyCanonical with
  | true =>
    have hr := ttyReceive_received h.reader hcanon byte
    have hd : (ttyReceive s byte).discipline.Ok := by
      rw [hr.discipline]
      exact Discipline.step_ok ⟨h.line_lt, h.noNewline⟩ byte
    exact ⟨hr.pushes.ok, hd.line_lt, hd.noNewline⟩
  | false =>
    have hcount : ReaderOk { s with tty.ttyRxCount := s.tty.ttyRxCount + 1 } :=
      ⟨h.reader.ptys, h.reader.ring⟩
    obtain ⟨hpush, -⟩ := ttyEnqueueRead_pushes hcount byte
    have hline := congrArg Tty.ttyLine (ttyEnqueueRead_tty
      { s with tty.ttyRxCount := s.tty.ttyRxCount + 1 } byte)
    rw [ttyReceive, if_neg (by simp [hcanon]), ttyHandleNoncanonical]
    dsimp only at hline ⊢
    have hok : TtyOk (ttyEnqueueRead { s with
        tty.ttyRxCount := s.tty.ttyRxCount + 1 } byte).1 :=
      ⟨hpush.ok, hline ▸ h.line_lt, hline ▸ h.noNewline⟩
    split
    · exact ⟨⟨hok.reader.ptys, hok.reader.ring⟩, hok.line_lt, hok.noNewline⟩
    · exact hok

theorem ttyPopChar_ok {s : Sys} (h : TtyOk s) : TtyOk (ttyPopChar s).1 := by
  rw [ttyPopChar]
  dsimp only
  split
  · exact h
  · exact ⟨⟨h.reader.ptys, h.reader.ring.pop⟩, h.line_lt, h.noNewline⟩

theorem ttyStep_ok {s : Sys} (h : TtyOk s) (op : TtyOp) : TtyOk (ttyStep s op) := by
  cases op with
  | receive byte => exact ttyReceive_ok h byte
  | popChar => exact ttyPopChar_ok h
  | setCanonical enabled => exact ⟨⟨h.reader.ptys, h.reader.ring⟩, h.line_lt, h.noNewline⟩
  | setEcho enabled => exact ⟨⟨h.reader.ptys, h.reader.ring⟩, h.line_lt, h.noNewline⟩
  | attachSession sessionId ptyId =>
    exact ⟨⟨h.reader.ptys, h.reader.ring⟩, h.line_lt, h.noNewline⟩
  | pty op => exact ⟨⟨(ptyCall_ok h.reader.ptys op).ok, h.reader.ring⟩, h.line_lt, h.noNewline⟩

theorem ttyStart_ok (s : Sys) : TtyOk (ttyStart s) :=
  ⟨⟨ptyInit_ok, SlotRing.inRange_zero (by decide) _⟩, Nat.zero_lt_succ _, List.not_mem_nil⟩

theorem ttyRun_ok (s : Sys) (ops : List TtyOp) : TtyOk (ttyRun s ops) :=
  List.foldlRecOn ops ttyStep (ttyStart_ok s) fun _ h op _ => ttyStep_ok h op

/-! ## Completed lines -/

/-- The TTY edits lines, and its escape filter lets the next byte through. Only then does a byte
have its meaning for the line. -/
structure Editing (s : Sys) : Prop where
  /-- canonical mode -/
  canonical : s.tty.ttyCanonical = true
  /-- no escape sequence is being discarded -/
  idle : s.tty.ttyEscapeState = 0

/-- `byte` completes the line of `s`, and the flush finds `bytes` in the line buffer. A newline
without a place in the line buffer flushes too, but it completes no line: it is lost itself. -/
inductive Completes (s : Sys) : UInt8 → List UInt8 → Prop
  /-- a newline that has a place in the line buffer -/
  | newline (hs : Editing s) (hfits : s.tty.ttyLine.length + 1 < ttyLineBufferSize) :
    Completes s 0x0A (s.tty.ttyLine ++ [0x0A])
  /-- an end of input after some data -/
  | endOfInput (hs : Editing s) (hline : s.tty.ttyLine ≠ []) : Completes s 0x04 s.tty.ttyLine

/-- `s'` is `s` after a flush of `bytes`: those that fit are delivered, and each of the others is
counted. Delivery goes byte by byte, so a full queue cuts the line where it is full. -/
structure DeliversPrefix (s s' : Sys) (bytes : List UInt8) : Prop where
  /-- the reader gets the first bytes, in order -/
  queue : s'.readerQueue = s.readerQueue ++ bytes.take s.readerRoom
  /-- what it does not get is counted, modulo 2^64 -/
  drops : s'.tty.ttyDropCount = s.tty.ttyDropCount + UInt64.ofNat (bytes.length - s.readerRoom)
  /-- and the line is gone either way -/
  line : s'.tty.ttyLine = []

/-- A flush of the line buffer. -/
theorem ttyFlushLineBuffer_cut {s : Sys} (h : ReaderOk s) :
    DeliversPrefix s (ttyFlushLineBuffer s) s.tty.ttyLine := by
  obtain ⟨hpush, hdrops, -⟩ := ttyFlushLineBuffer_pushes h
  exact ⟨hpush.queue, hdrops, rfl⟩

/-- The newline branch, with a place for the newline. -/
theorem ttyHandleNewline_cut {s : Sys} (h : ReaderOk s)
    (hfits : s.tty.ttyLine.length + 1 < ttyLineBufferSize) :
    DeliversPrefix s (ttyHandleNewline s) (s.tty.ttyLine ++ [0x0A]) := by
  -- The echo comes before the flush and leaves the queue alone.
  have hflush : ∀ s₁ : Sys, ReaderOk s₁ → s₁.readerQueue = s.readerQueue →
      s₁.tty.ttyDropCount = s.tty.ttyDropCount →
      DeliversPrefix s { ttyFlushLineBuffer s₁ with tty.ttyLineTruncated := false }
        s₁.tty.ttyLine := by
    intro s₁ h₁ hqueue hdrops
    have hp := ttyFlushLineBuffer_cut h₁
    have hroom : s₁.readerRoom = s.readerRoom := by rw [Sys.readerRoom, Sys.readerRoom, hqueue]
    have hpq := hp.queue
    have hpd := hp.drops
    rw [hqueue, hroom] at hpq
    rw [hdrops, hroom] at hpd
    exact ⟨hpq, hpd, hp.line⟩
  rw [ttyHandleNewline, if_pos hfits]
  dsimp only
  split
  · exact hflush (Sys.emit _ _) ⟨h.ptys, h.ring⟩ rfl rfl
  · exact hflush _ ⟨h.ptys, h.ring⟩ rfl rfl

/-- A byte that passes the filter goes to its branch. -/
theorem ttyReceive_editing {s : Sys} (hs : Editing s) {byte : UInt8} (hb : byte ≠ 0x1B) :
    ttyHandleEscapeFilter { s with tty.ttyRxCount := s.tty.ttyRxCount + 1 } byte =
        ({ s with tty.ttyRxCount := s.tty.ttyRxCount + 1 }, false) ∧
      ttyReceive s byte =
        ttyHandleCanonical { s with tty.ttyRxCount := s.tty.ttyRxCount + 1 } byte := by
  refine ⟨ttyHandleEscapeFilter_text ?_ hb, ?_⟩
  · exact hs.idle
  · rw [ttyReceive, if_pos hs.canonical]

/-- What is written to the attached PTY is in the reader's queue. -/
theorem ptyWrite_readerQueue {t : Sys} (h : ReaderOk t) {i : ℕ} (hi : t.tty.ttySessionPty = i)
    (hv : ptyIsValid t.ptys i = true) {bytes : List UInt8}
    (hfits : bytes.length ≤ ptyQueueSize - 1 - (t.ptys.queued i .m2s).length) :
    (ttyStep t (.pty (.write .m2s i (some bytes)))).readerQueue =
      t.ptys.queued i .m2s ++ bytes := by
  obtain ⟨-, hq, hn, -⟩ := ptyWrite_spec h.ptys hv .m2s bytes
  have hv' : ptyIsValid (ptyWrite .m2s t.ptys i (some bytes)).1 i = true :=
    (ptyIsValid_ptyWrite ..).trans hv
  have hatt : (ttyStep t (.pty (.write .m2s i (some bytes)))).attached = true :=
    Sys.attached_iff.mpr ⟨i, hi, hv'⟩
  refine (Sys.readerQueue_attached hatt hi).trans ?_
  refine (hq i .m2s).trans ?_
  rw [if_pos ⟨rfl, rfl⟩, hn, Nat.min_eq_left hfits, List.take_length]

/-- A PTY attached whose queue to the slave has room for one more byte. -/
def almostFull : List TtyOp :=
  [.pty .alloc, .attachSession 1 0, .pty (.write .m2s 0 (some (List.replicate 2046 0x78)))]

/-- A typed letter is in the line buffer, and takes none of the reader's room yet. -/
theorem ttyReceive_letter {t : Sys} (h : ReaderOk t) (hs : Editing t)
    (hline : t.tty.ttyLine = []) :
    Editing (ttyReceive t 0x61) ∧ (ttyReceive t 0x61).tty.ttyLine = [0x61] ∧
      (ttyReceive t 0x61).readerRoom = t.readerRoom := by
  have hd : t.discipline = ⟨0, []⟩ := by rw [Sys.discipline, hs.idle, hline]
  have hdata := ttyReceive_received h hs.canonical 0x61
  rw [hd] at hdata
  exact ⟨⟨hdata.canonical.trans hs.canonical, congrArg Discipline.escape hdata.discipline⟩,
    congrArg Discipline.line hdata.discipline, hdata.pushes.room⟩

/-- The letter in the line buffer, and room for one byte. -/
theorem almostFull_letter :
    Editing (ttyRun sysZero (almostFull ++ [.receive 0x61])) ∧
      (ttyRun sysZero (almostFull ++ [.receive 0x61])).tty.ttyLine = [0x61] ∧
      (ttyRun sysZero (almostFull ++ [.receive 0x61])).readerRoom = 1 := by
  have hrun : ttyRun sysZero (almostFull ++ [.receive 0x61]) =
      ttyReceive (ttyRun sysZero almostFull) 0x61 := by
    rw [ttyRun, List.foldl_append]
    rfl
  have hqueue : (ttyRun sysZero almostFull).readerQueue = List.replicate 2046 0x78 := by
    refine (ptyWrite_readerQueue (t := ttyRun sysZero [.pty .alloc, .attachSession 1 0])
      (i := 0) (ttyRun_ok _ _).reader rfl (by decide) ?_).trans ?_
    · rw [List.length_replicate]
      decide
    · rfl
  have hroom : (ttyRun sysZero almostFull).readerRoom = 1 := by
    rw [Sys.readerRoom, hqueue, List.length_replicate]
    rfl
  rw [hrun, ← hroom]
  exact ttyReceive_letter (ttyRun_ok _ _).reader ⟨rfl, rfl⟩ rfl

/-- **A completed line is delivered up to the first byte that finds no room**, in every
reachable state: attached or not, and however much the reader has left unread. -/
theorem completed_line_delivered (s : Sys) (ops : List TtyOp) {byte : UInt8}
    {bytes : List UInt8} (h : Completes (ttyRun s ops) byte bytes) :
    DeliversPrefix (ttyRun s ops) (ttyReceive (ttyRun s ops) byte) bytes := by
  have hok := (ttyRun_ok s ops).reader
  have hcount : ReaderOk { ttyRun s ops with
      tty.ttyRxCount := (ttyRun s ops).tty.ttyRxCount + 1 } := ⟨hok.ptys, hok.ring⟩
  cases h with
  | newline hs hfits =>
    obtain ⟨hfilter, hreceive⟩ := ttyReceive_editing hs (show (0x0A : UInt8) ≠ 0x1B by decide)
    rw [hreceive, ttyHandleCanonical, hfilter]
    have hcut := ttyHandleNewline_cut hcount hfits
    exact ⟨hcut.queue, hcut.drops, hcut.line⟩
  | endOfInput hs hline =>
    obtain ⟨hfilter, hreceive⟩ := ttyReceive_editing hs (show (0x04 : UInt8) ≠ 0x1B by decide)
    rw [hreceive, ttyHandleCanonical, hfilter]
    have hcut := ttyFlushLineBuffer_cut hcount
    dsimp only
    rw [if_neg (by decide), if_neg (by decide), if_neg (by decide), if_neg (by decide),
      if_neg (by decide), if_pos rfl, if_neg (mt List.length_eq_zero_iff.mp hline)]
    exact ⟨hcut.queue, hcut.drops, hcut.line⟩

/-- Two bytes, and room for one. -/
theorem DeliversPrefix.one {s s' : Sys} {x y : UInt8} (h : DeliversPrefix s s' [x, y])
    (hroom : s.readerRoom = 1) :
    s'.readerQueue = s.readerQueue ++ [x] ∧ s'.tty.ttyDropCount = s.tty.ttyDropCount + 1 := by
  have hqueue := h.queue
  have hdrops := h.drops
  rw [hroom] at hqueue hdrops
  exact ⟨hqueue, hdrops⟩

/-- A letter and its newline, with room for the letter: the newline is counted. -/
theorem completed_line_delivered_almostFull :
    (ttyReceive (ttyRun sysZero (almostFull ++ [.receive 0x61])) 0x0A).readerQueue =
        (ttyRun sysZero (almostFull ++ [.receive 0x61])).readerQueue ++ [0x61] ∧
      (ttyReceive (ttyRun sysZero (almostFull ++ [.receive 0x61])) 0x0A).tty.ttyDropCount =
        (ttyRun sysZero (almostFull ++ [.receive 0x61])).tty.ttyDropCount + 1 := by
  obtain ⟨hs, hline, hroom⟩ := almostFull_letter
  have hcompletes : Completes (ttyRun sysZero (almostFull ++ [.receive 0x61])) 0x0A
      ((ttyRun sysZero (almostFull ++ [.receive 0x61])).tty.ttyLine ++ [0x0A]) :=
    Completes.newline hs (by rw [hline]; decide)
  rw [hline] at hcompletes
  exact (completed_line_delivered sysZero _ hcompletes).one hroom

/-- So a line may be delivered without its newline. -/
theorem almostFull_cuts_line :
    Editing (ttyRun sysZero (almostFull ++ [.receive 0x61])) ∧
      (ttyRun sysZero (almostFull ++ [.receive 0x61])).tty.ttyLine = [0x61] ∧
      (ttyReceive (ttyRun sysZero (almostFull ++ [.receive 0x61])) 0x0A).readerQueue =
        (ttyRun sysZero (almostFull ++ [.receive 0x61])).readerQueue ++ [0x61] := by
  obtain ⟨hs, hline, hroom⟩ := almostFull_letter
  have hnewline := ttyReceive_received (ttyRun_ok _ _).reader hs.canonical 0x0A
  rw [Sys.discipline, hs.idle, hline] at hnewline
  refine ⟨hs, hline, ?_⟩
  rw [hnewline.pushes.queue, hroom]
  rfl

/-! ## Newlines -/

/-- A newline, when the filter is idle. -/
theorem Discipline.step_newline {d : Discipline} (h : d.escape = 0) :
    d.step 0x0A = (⟨0, []⟩,
      if d.line.length + 1 < ttyLineBufferSize then d.line ++ [0x0A] else d.line) := by
  rw [Discipline.step, h]
  rfl

/-- A byte that is no newline delivers none. -/
theorem lineStep_noNewline {line : List UInt8} (hnl : 0x0A ∉ line) {byte : UInt8}
    (hb : byte ≠ 0x0A) : 0x0A ∉ (lineStep line byte).2 := by
  have hone : ∀ b : UInt8, b ≠ 0x0A → 0x0A ∉ [b] :=
    fun b hne hm => hne (List.mem_singleton.mp hm).symm
  rw [lineStep]
  split_ifs with h3 hc he h4
  · exact hone 0x03 (by decide)
  · exact hone 0x0C (by decide)
  · exact List.not_mem_nil
  · exact hone 0x04 (by decide)
  · exact hnl
  · exact List.not_mem_nil
  · exact List.not_mem_nil

/-- A byte that is not discarded found the filter idle. -/
theorem escapeStep_idle {state : ℕ} {byte : UInt8} (h : (escapeStep state byte).2 ≠ true) :
    state = 0 := by
  by_contra hne
  rw [escapeStep, if_neg hne] at h
  split_ifs at h <;> exact h rfl

/-- Nothing but a newline that passes the filter delivers a newline. -/
theorem Discipline.step_noNewline {d : Discipline} (hnl : 0x0A ∉ d.line) {byte : UInt8}
    (hb : ¬(byte = 0x0A ∧ d.escape = 0)) : 0x0A ∉ (d.step byte).2 := by
  rw [Discipline.step]
  split
  · exact List.not_mem_nil
  · rename_i hpassed
    exact lineStep_noNewline hnl fun hn => hb ⟨hn, escapeStep_idle hpassed⟩

/-- In the run, `byte` is received in state `t`. It names the moments that a statement about all
receptions is about. -/
def ReceivedAt (s : Sys) (ops : List TtyOp) (byte : UInt8) (t : Sys) : Prop :=
  ∃ before, before ++ [.receive byte] <+: ops ∧ t = ttyRun s before

/-- Whenever a byte is received, the mode is canonical and the reader has room for the pending
line with a newline. So nothing is lost for want of room in the queue, and what is lost is lost in
the line buffer. -/
def RoomyRun (s : Sys) (ops : List TtyOp) : Prop :=
  ∀ byte t, ReceivedAt s ops byte t →
    t.tty.ttyCanonical = true ∧ t.tty.ttyLine.length + 1 ≤ t.readerRoom

/-- A newline delivers the line and one newline, and the newline is the only one. -/
structure LineFramed (t : Sys) : Prop where
  /-- what the reader gets -/
  delivered : (ttyReceive t 0x0A).readerQueue = t.readerQueue ++ (t.tty.ttyLine ++ [0x0A])
  /-- and no newline is in the line itself -/
  noNewline : 0x0A ∉ t.tty.ttyLine

/-- Newlines delivered are newlines typed, one for one. A reader that cuts its stream at the
newlines then gets the lines as they were typed. -/
structure FramedRun (s : Sys) (ops : List TtyOp) : Prop where
  /-- every newline that passes the filter frames its line -/
  newline : ∀ t, ReceivedAt s ops 0x0A t → Editing t → LineFramed t
  /-- no other byte delivers one -/
  others : ∀ byte t, ReceivedAt s ops byte t → ¬(byte = 0x0A ∧ Editing t) →
    ∃ out, (ttyReceive t byte).readerQueue = t.readerQueue ++ out ∧ 0x0A ∉ out

theorem ReceivedAt.ok {s : Sys} {ops : List TtyOp} {byte : UInt8} {t : Sys}
    (h : ReceivedAt s ops byte t) : TtyOk t := by
  obtain ⟨before, -, rfl⟩ := h
  exact ttyRun_ok s before

/-- One newline: the line buffer needs a place for it. -/
theorem lineFramed_iff {t : Sys} (h : TtyOk t) (hs : Editing t)
    (hroom : t.tty.ttyLine.length + 1 ≤ t.readerRoom) :
    LineFramed t ↔ t.tty.ttyLine.length ≤ 510 := by
  have hqueue := (ttyReceive_received h.reader hs.canonical 0x0A).pushes.queue
  rw [Discipline.step_newline hs.idle] at hqueue
  constructor
  · intro hframed
    by_contra hlong
    rw [if_neg (by change ¬t.tty.ttyLine.length + 1 < 512; omega)] at hqueue
    -- the whole line is delivered, but it is all there is
    have hall : t.discipline.line.take t.readerRoom = t.tty.ttyLine :=
      List.take_of_length_le (Nat.le_of_succ_le hroom)
    have heq := List.append_cancel_left ((hqueue.symm.trans hframed.delivered))
    rw [hall] at heq
    have hlen := congrArg List.length heq
    rw [List.length_append, List.length_singleton] at hlen
    omega
  · intro hshort
    rw [if_pos (by change t.tty.ttyLine.length + 1 < 512; omega)] at hqueue
    refine ⟨?_, h.noNewline⟩
    rw [hqueue, List.take_of_length_le]
    · rfl
    · rw [List.length_append, List.length_singleton]
      exact hroom

/-- **Newlines are delivered one for one** in a run with room for the reader exactly
when every line leaves its newline a place in the line buffer. -/
theorem newlines_framed_iff (s : Sys) (ops : List TtyOp) (hroom : RoomyRun s ops) :
    FramedRun s ops ↔
      ∀ t, ReceivedAt s ops 0x0A t → Editing t → t.tty.ttyLine.length ≤ 510 := by
  constructor
  · intro h t ht hs
    exact (lineFramed_iff ht.ok hs (hroom _ t ht).2).mp (h.newline t ht hs)
  · intro h
    refine ⟨fun t ht hs => (lineFramed_iff ht.ok hs (hroom _ t ht).2).mpr (h t ht hs), ?_⟩
    intro byte t ht hb
    have hcanon := (hroom _ t ht).1
    refine ⟨_, (ttyReceive_received ht.ok.reader hcanon byte).pushes.queue, fun hm => ?_⟩
    refine Discipline.step_noNewline ht.ok.noNewline (fun hc => hb ?_) (List.mem_of_mem_take hm)
    exact ⟨hc.1, hcanon, hc.2⟩

/-- A letter and a newline. -/
theorem newlines_framed_iff_a :
    FramedRun sysZero [.receive 0x61, .receive 0x0A] ↔
      ∀ t, ReceivedAt sysZero [.receive 0x61, .receive 0x0A] 0x0A t → Editing t →
        t.tty.ttyLine.length ≤ 510 := by
  refine newlines_framed_iff _ _ ?_
  rintro byte t ⟨before, hbefore, rfl⟩
  have hlen := hbefore.length_le
  rw [List.length_append] at hlen
  rcases before with _ | ⟨op, _ | ⟨op', before⟩⟩
  · decide
  · obtain rfl : op = .receive 0x61 := (List.cons_prefix_cons.mp hbefore).1
    decide
  · simp at hlen

/-- A line of 511 bytes, and the next one. -/
def longLine : List UInt8 := List.replicate 511 0x61 ++ [0x0A, 0x62, 0x0A]

/-- A stream received from the start, as long as the reader's queue takes what it
delivers. -/
theorem ttyRun_receives (bytes : List UInt8)
    (hfits : ((ttyStart sysZero).discipline.feed bytes).2.length ≤ 2047) :
    (ttyRun sysZero (bytes.map .receive)).discipline =
        ((ttyStart sysZero).discipline.feed bytes).1 ∧
      (ttyRun sysZero (bytes.map .receive)).tty.ttyCanonical = true ∧
      (ttyRun sysZero (bytes.map .receive)).readerQueue =
        ((ttyStart sysZero).discipline.feed bytes).2 := by
  have hrun := ttyReceives_received bytes (ttyStart_ok sysZero).reader rfl
  have hempty : (ttyStart sysZero).readerQueue = [] := rfl
  have hroom : (ttyStart sysZero).readerRoom = 2047 := rfl
  have hqueue := hrun.pushes.queue
  rw [hempty, hroom, List.nil_append, List.take_of_length_le hfits] at hqueue
  rw [ttyRun, List.foldl_map]
  exact ⟨hrun.discipline, hrun.canonical, hqueue⟩

/-- One full line buffer is enough. -/
theorem not_framedRun {s : Sys} {ops before : List TtyOp} {line : List UInt8}
    (hbefore : before ++ [.receive 0x0A] <+: ops)
    (hcanon : (ttyRun s before).tty.ttyCanonical = true)
    (hd : (ttyRun s before).discipline = ⟨0, line⟩)
    (hroom : line.length + 1 ≤ (ttyRun s before).readerRoom) (hlong : 510 < line.length) :
    ¬FramedRun s ops := by
  intro h
  have hescape : (ttyRun s before).tty.ttyEscapeState = 0 := congrArg Discipline.escape hd
  have hline : (ttyRun s before).tty.ttyLine = line := congrArg Discipline.line hd
  subst hline
  have hframed := h.newline _ ⟨before, hbefore, rfl⟩ ⟨hcanon, hescape⟩
  have hshort := (lineFramed_iff (ttyRun_ok s before) ⟨hcanon, hescape⟩ hroom).mp hframed
  omega

/-- The newline of the long line is not delivered, and the reader gets the two lines as
one. -/
theorem longLine_joins_next :
    ¬FramedRun sysZero (longLine.map .receive) ∧
      (ttyRun sysZero (longLine.map .receive)).readerQueue =
        List.replicate 511 0x61 ++ [0x62, 0x0A] := by
  have hline : (ttyStart sysZero).discipline.feed (List.replicate 511 0x61) =
      (⟨0, List.replicate 511 0x61⟩, []) := by
    decide +kernel
  have hboth : ((ttyStart sysZero).discipline.feed longLine).2 =
      List.replicate 511 0x61 ++ [0x62, 0x0A] := by
    decide +kernel
  constructor
  · obtain ⟨hd, hcanon, hqueue⟩ := ttyRun_receives (List.replicate 511 0x61) (by
      rw [hline]
      decide)
    rw [hline] at hd hqueue
    have hbefore : (List.replicate 511 0x61).map TtyOp.receive ++ [.receive 0x0A] <+:
        longLine.map .receive := by
      rw [longLine, List.map_append]
      exact (List.prefix_append_right_inj _).mpr ⟨[.receive 0x62, .receive 0x0A], rfl⟩
    refine not_framedRun hbefore hcanon hd ?_ ?_
    · rw [Sys.readerRoom, hqueue, List.length_replicate]
      decide
    · rw [List.length_replicate]
      decide
  · refine (ttyRun_receives longLine ?_).2.2.trans hboth
    rw [hboth, List.length_append, List.length_replicate]
    decide

end WaluOs
