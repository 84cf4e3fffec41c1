import WaluOs.LineDiscipline

/-!
# What the TTY delivers

The TTY pushes bytes to its reader through the PTY it is attached to, or through
its own read queue when it is attached to none that is allocated. Both hold 2047
bytes, and `tty_enqueue_read` treats them alike, so the reader's queue is one list
here (`Sys.readerQueue`), and `Pushes` says what a number of pushes does to it:
the bytes join it in order as far as there is room.

With that, one received byte in canonical mode is a function of the little that
the discipline keeps, the state of its escape filter (`escapeStep`) and the line
buffer (`lineStep`). `ttyHandleCanonical_spec` is the only place where the
branches of the source are gone through; what follows about runs uses it.
-/

namespace WaluOs

/-! ## The reader's queue -/

/-- The TTY is attached to a PTY, and the PTY is allocated. -/
def Sys.attached (s : Sys) : Bool :=
  decide (0 ≤ s.tty.ttySessionPty) && ptyIsValid s.ptys s.tty.ttySessionPty

/-- What has been delivered and not read yet, in the one of the two queues that the reader reads:
that of the attached PTY, or else the TTY's own. Statements about delivery are about this queue
and so hold for both ways. -/
def Sys.readerQueue (s : Sys) : List UInt8 :=
  if s.attached then s.ptys.queued s.tty.ttySessionPty.toNat .m2s
  else s.tty.ttyReadQueue.contents ttyReadQueueSize

/-- How many more bytes the reader's queue takes. Both queues have the same size, of which one
place stays empty. -/
def Sys.readerRoom (s : Sys) : ℕ := ttyReadQueueSize - 1 - s.readerQueue.length

/-- Both queues the TTY can deliver to are sound. Which of them is used may change at any time. -/
structure ReaderOk (s : Sys) : Prop where
  /-- PTY table invariant -/
  ptys : s.ptys.Ok
  /-- indices of the read queue address slots -/
  ring : s.tty.ttyReadQueue.InRange ttyReadQueueSize

/-- The PTY table after pushing `bytes`. -/
def Sys.pushedPtys (s : Sys) (bytes : List UInt8) : Ptys :=
  if s.attached then
    bytes.foldl (fun p b => (ptyMasterWrite p s.tty.ttySessionPty (some [b])).1) s.ptys
  else s.ptys

/-- `s'` is `s` with `bytes` pushed to the reader, as far as there was room. It is the
specification of the delivery, for either queue: the front that fits arrives, in order, and
nothing else in the queues changes. -/
structure Pushes (s s' : Sys) (bytes : List UInt8) : Prop where
  /-- the queues stay sound -/
  ok : ReaderOk s'
  /-- what is written to the PTY table -/
  ptys : s'.ptys = s.pushedPtys bytes
  /-- the same PTY is attached -/
  sessionPty : s'.tty.ttySessionPty = s.tty.ttySessionPty
  /-- no PTY is handed out or taken back -/
  allocated : ∀ i, (s'.ptys.gPtys i).allocated = (s.ptys.gPtys i).allocated
  /-- the reader's queue takes what fits -/
  queue : s'.readerQueue = s.readerQueue ++ bytes.take s.readerRoom
  /-- no other PTY queue changes -/
  others : ∀ (i : ℕ) d, ¬(s.attached = true ∧ s.tty.ttySessionPty = i ∧ d = .m2s) →
    s'.ptys.queued i d = s.ptys.queued i d
  /-- neither does the TTY's own queue, if it is not the reader's -/
  ring : s.attached = true →
    s'.tty.ttyReadQueue.contents ttyReadQueueSize = s.tty.ttyReadQueue.contents ttyReadQueueSize

theorem ptyIsValid_congr {p p' : Ptys} (h : ∀ i, (p'.gPtys i).allocated = (p.gPtys i).allocated)
    (i : ℤ) : ptyIsValid p' i = ptyIsValid p i := by
  rw [ptyIsValid, ptyIsValid, h]

theorem Sys.attached_congr {s s' : Sys} (hpty : s'.tty.ttySessionPty = s.tty.ttySessionPty)
    (halloc : ∀ i, (s'.ptys.gPtys i).allocated = (s.ptys.gPtys i).allocated) :
    s'.attached = s.attached := by
  rw [Sys.attached, Sys.attached, hpty, ptyIsValid_congr halloc]

/-- The attached PTY, by its index. -/
theorem Sys.attached_iff {s : Sys} :
    s.attached = true ↔ ∃ i : ℕ, s.tty.ttySessionPty = i ∧ ptyIsValid s.ptys i = true := by
  rw [Sys.attached, Bool.and_eq_true, decide_eq_true_eq]
  constructor
  · rintro ⟨h0, hv⟩
    obtain ⟨i, -, hi, -⟩ := ptyIsValid_iff.mp hv
    exact ⟨i, hi, hi ▸ hv⟩
  · rintro ⟨i, hi, hv⟩
    exact ⟨by omega, hi ▸ hv⟩

theorem Sys.readerQueue_attached {s : Sys} {i : ℕ} (hs : s.attached = true)
    (hi : s.tty.ttySessionPty = i) : s.readerQueue = s.ptys.queued i .m2s := by
  rw [Sys.readerQueue, if_pos hs, hi, Int.toNat_natCast]

theorem Sys.readerQueue_ring {s : Sys} (hs : s.attached = false) :
    s.readerQueue = s.tty.ttyReadQueue.contents ttyReadQueueSize := by
  rw [Sys.readerQueue, if_neg (by simp [hs])]

namespace Pushes

variable {s s' s'' : Sys} {xs ys : List UInt8}

theorem nil (h : ReaderOk s) : Pushes s s [] :=
  ⟨h, by simp [Sys.pushedPtys], rfl, fun _ => rfl, by simp, fun _ _ _ => rfl, fun _ => rfl⟩

theorem attached (h : Pushes s s' xs) : s'.attached = s.attached :=
  Sys.attached_congr h.sessionPty h.allocated

/-- What was pushed uses up the room. -/
theorem room (h : Pushes s s' xs) : s'.readerRoom = s.readerRoom - xs.length := by
  rw [Sys.readerRoom, Sys.readerRoom, h.queue, List.length_append, List.length_take,
    Sys.readerRoom]
  omega

theorem trans (h : Pushes s s' xs) (h' : Pushes s' s'' ys) : Pushes s s'' (xs ++ ys) := by
  refine ⟨h'.ok, ?_, h'.sessionPty.trans h.sessionPty,
    fun i => (h'.allocated i).trans (h.allocated i), ?_, fun i d hne => ?_, fun hs => ?_⟩
  · rw [h'.ptys, Sys.pushedPtys, h.attached, h.ptys, h.sessionPty, Sys.pushedPtys,
      Sys.pushedPtys, List.foldl_append]
    split <;> rfl
  · rw [h'.queue, h.queue, h.room, List.take_append, List.append_assoc]
  · rw [h'.others i d (by rwa [h.attached, h.sessionPty]), h.others i d hne]
  · rw [h'.ring (h.attached.trans hs), h.ring hs]

/-- Only the queues and the attachment matter. -/
theorem congr_left (h : Pushes s' s'' xs) (hptys : s'.ptys = s.ptys)
    (hring : s'.tty.ttyReadQueue = s.tty.ttyReadQueue)
    (hpty : s'.tty.ttySessionPty = s.tty.ttySessionPty) : Pushes s s'' xs := by
  have hatt : s'.attached = s.attached := Sys.attached_congr hpty fun i => by rw [hptys]
  have hqueue : s'.readerQueue = s.readerQueue := by
    rw [Sys.readerQueue, Sys.readerQueue, hatt, hptys, hpty, hring]
  refine ⟨h.ok, ?_, h.sessionPty.trans hpty, fun i => (h.allocated i).trans (by rw [hptys]), ?_,
    fun i d hne => ?_, fun hs => ?_⟩
  · rw [h.ptys, Sys.pushedPtys, Sys.pushedPtys, hatt, hptys, hpty]
  · rw [h.queue, Sys.readerRoom, Sys.readerRoom, hqueue]
  · rw [h.others i d (by rwa [hatt, hpty]), hptys]
  · rw [h.ring (hatt.trans hs), hring]

theorem congr_right (h : Pushes s s' xs) (hptys : s''.ptys = s'.ptys)
    (hring : s''.tty.ttyReadQueue = s'.tty.ttyReadQueue)
    (hpty : s''.tty.ttySessionPty = s'.tty.ttySessionPty) : Pushes s s'' xs := by
  have hok : ReaderOk s'' := ⟨hptys ▸ h.ok.ptys, hring ▸ h.ok.ring⟩
  have hboth := h.trans ((nil hok).congr_left hptys hring hpty)
  rwa [List.append_nil] at hboth

end Pushes

/-! ## Pushing -/

/-- What the receive path changes besides the reader's queue: the drop counter and
the ring. -/
theorem ttyEnqueueRead_tty (s : Sys) (byte : UInt8) :
    (ttyEnqueueRead s byte).1.tty =
      { s.tty with
        ttyReadQueue := (ttyEnqueueRead s byte).1.tty.ttyReadQueue
        ttyDropCount := (ttyEnqueueRead s byte).1.tty.ttyDropCount } := by
  rw [ttyEnqueueRead]
  dsimp only
  split_ifs <;> rfl

/-- Through the PTY. The byte joins the queue of the slave, or is dropped there and counted here,
as the return value of the write says. -/
theorem ttyEnqueueRead_attached {s : Sys} (h : ReaderOk s) (hs : s.attached = true)
    (byte : UInt8) :
    Pushes s (ttyEnqueueRead s byte).1 [byte] ∧
      (ttyEnqueueRead s byte).1.tty.ttyDropCount =
        s.tty.ttyDropCount + UInt64.ofNat (1 - s.readerRoom) := by
  obtain ⟨i, hi, hv⟩ := Sys.attached_iff.mp hs
  obtain ⟨hok, hq, hn, -⟩ := ptyWrite_spec h.ptys hv .m2s [byte]
  have hroom : s.readerRoom = ptyQueueSize - 1 - (s.ptys.queued i .m2s).length := by
    rw [Sys.readerRoom, Sys.readerQueue_attached hs hi]
  -- The drop counter does not matter for what the reader finds.
  have hqueue : ∀ s' : Sys, s'.ptys = (ptyWrite .m2s s.ptys i (some [byte])).1 →
      s'.tty.ttyReadQueue = s.tty.ttyReadQueue → s'.tty.ttySessionPty = i →
      Pushes s s' [byte] := by
    intro s' hptys hring hpty
    have halloc : ∀ j : ℕ, (s'.ptys.gPtys j).allocated = (s.ptys.gPtys j).allocated := by
      intro j
      rw [hptys, ptyWrite, if_pos hv]
      exact allocated_setSlot_setQueue s.ptys (Int.toNat i) j _ .m2s
    have hatt : s'.attached = true := (Sys.attached_congr (hpty.trans hi.symm) halloc).trans hs
    refine ⟨⟨hptys ▸ hok, hring ▸ h.ring⟩, ?_, hpty.trans hi.symm, halloc, ?_,
      fun j d hne => ?_, fun _ => by rw [hring]⟩
    · rw [Sys.pushedPtys, if_pos hs, hi]
      exact hptys
    · rw [Sys.readerQueue_attached hatt hpty, hptys, hq, if_pos ⟨rfl, rfl⟩, hn,
        Sys.readerQueue_attached hs hi, ← hroom]
      congr 1
      exact List.take_eq_take_iff.mpr (by simp [Nat.min_comm])
    · rw [hptys, hq, if_neg fun hc => hne ⟨hs, by rw [hi, hc.1], hc.2⟩]
  rw [ttyEnqueueRead, hi, if_pos ⟨by omega, hv⟩]
  dsimp only
  rw [ptyMasterWrite, hn, ← hroom]
  split_ifs with hone
  · refine ⟨hqueue _ rfl rfl hi, ?_⟩
    rw [List.length_singleton] at hone
    rw [Nat.sub_eq_zero_of_le (by omega)]
    exact (UInt64.add_zero _).symm
  · refine ⟨hqueue _ rfl rfl hi, ?_⟩
    rw [List.length_singleton] at hone
    rw [show 1 - s.readerRoom = 1 by omega]
    rfl

/-- Through the TTY's own queue, if it is attached to no PTY. A full queue drops the byte and
counts it. -/
theorem ttyEnqueueRead_ring {s : Sys} (h : ReaderOk s) (hs : s.attached = false) (byte : UInt8) :
    Pushes s (ttyEnqueueRead s byte).1 [byte] ∧
      (ttyEnqueueRead s byte).1.tty.ttyDropCount =
        s.tty.ttyDropCount + UInt64.ofNat (1 - s.readerRoom) := by
  have hnot : ¬(0 ≤ s.tty.ttySessionPty ∧ ptyIsValid s.ptys s.tty.ttySessionPty = true) := by
    simpa [Sys.attached] using hs
  have hroom : s.readerRoom =
      ttyReadQueueSize - 1 - s.tty.ttyReadQueue.count ttyReadQueueSize := by
    rw [Sys.readerRoom, Sys.readerQueue_ring hs, SlotRing.length_contents]
  have hlt := h.ring.count_lt
  rw [ttyEnqueueRead, if_neg hnot]
  dsimp only
  split_ifs with hfull
  · have hcount := h.ring.full_iff.mp hfull
    have hzero : s.readerRoom = 0 := by omega
    refine ⟨⟨⟨h.ptys, h.ring⟩, ?_, rfl, fun _ => rfl, ?_, fun _ _ _ => rfl, fun _ => rfl⟩, ?_⟩
    · rw [Sys.pushedPtys, if_neg (by simp [hs])]
    · rw [hzero, List.take_zero, List.append_nil]
      rfl
    · rw [hzero]
      rfl
  · have hcount := mt h.ring.full_iff.mpr hfull
    have hpos : 1 ≤ s.readerRoom := by omega
    refine ⟨⟨⟨h.ptys, h.ring.push byte⟩, ?_, rfl, fun _ => rfl, ?_, fun _ _ _ => rfl,
      fun hatt => absurd hatt (by simp [hs])⟩, ?_⟩
    · rw [Sys.pushedPtys, if_neg (by simp [hs])]
    · rw [Sys.readerQueue_ring hs, List.take_of_length_le hpos]
      refine (Sys.readerQueue_ring ?_).trans (h.ring.contents_push hfull byte)
      exact hs
    · rw [Nat.sub_eq_zero_of_le hpos]
      exact (UInt64.add_zero _).symm

/-- **`tty_enqueue_read`** pushes one byte, and counts it if there is no room. -/
theorem ttyEnqueueRead_pushes {s : Sys} (h : ReaderOk s) (byte : UInt8) :
    Pushes s (ttyEnqueueRead s byte).1 [byte] ∧
      (ttyEnqueueRead s byte).1.tty.ttyDropCount =
        s.tty.ttyDropCount + UInt64.ofNat (1 - s.readerRoom) := by
  cases hs : s.attached with
  | true => exact ttyEnqueueRead_attached h hs byte
  | false => exact ttyEnqueueRead_ring h hs byte

/-- Pushing several bytes, one after the other. -/
theorem ttyEnqueueReads_pushes (bytes : List UInt8) :
    ∀ {s : Sys}, ReaderOk s →
      Pushes s (bytes.foldl (fun s b => (ttyEnqueueRead s b).1) s) bytes ∧
        (bytes.foldl (fun s b => (ttyEnqueueRead s b).1) s).tty.ttyDropCount =
          s.tty.ttyDropCount + UInt64.ofNat (bytes.length - s.readerRoom) ∧
        (bytes.foldl (fun s b => (ttyEnqueueRead s b).1) s).tty =
          { s.tty with
            ttyReadQueue := (bytes.foldl (fun s b => (ttyEnqueueRead s b).1) s).tty.ttyReadQueue
            ttyDropCount :=
              (bytes.foldl (fun s b => (ttyEnqueueRead s b).1) s).tty.ttyDropCount } := by
  induction bytes with
  | nil =>
    intro s h
    refine ⟨.nil h, ?_, rfl⟩
    rw [List.length_nil, Nat.zero_sub]
    exact (UInt64.add_zero _).symm
  | cons b bytes ih =>
    intro s h
    obtain ⟨hone, hdrop⟩ := ttyEnqueueRead_pushes h b
    obtain ⟨hrest, hdrops, htty⟩ := ih hone.ok
    have hroom := hone.room
    rw [List.length_singleton] at hroom
    rw [List.foldl_cons]
    refine ⟨hone.trans hrest, ?_, ?_⟩
    · rw [hdrops, hdrop, hroom, UInt64.add_assoc, ← UInt64.ofNat_add, List.length_cons]
      congr 2
      omega
    · rw [htty, ttyEnqueueRead_tty]

/-- **`tty_flush_line_buffer`** pushes the line, byte by byte, and counts each byte
that found no room. -/
theorem ttyFlushLineBuffer_pushes {s : Sys} (h : ReaderOk s) :
    Pushes s (ttyFlushLineBuffer s) s.tty.ttyLine ∧
      (ttyFlushLineBuffer s).tty.ttyDropCount =
        s.tty.ttyDropCount + UInt64.ofNat (s.tty.ttyLine.length - s.readerRoom) ∧
      (ttyFlushLineBuffer s).tty =
        { s.tty with
          ttyReadQueue := (ttyFlushLineBuffer s).tty.ttyReadQueue
          ttyDropCount := (ttyFlushLineBuffer s).tty.ttyDropCount
          ttyLine := [] } := by
  obtain ⟨hpush, hdrops, htty⟩ := ttyEnqueueReads_pushes s.tty.ttyLine h
  refine ⟨hpush.congr_right rfl rfl rfl, hdrops, ?_⟩
  rw [ttyFlushLineBuffer, htty]

/-! ## The discipline without its surroundings -/

/-- One byte in the escape filter: the state it leaves, and whether it discards the
byte. -/
def escapeStep (state : ℕ) (byte : UInt8) : ℕ × Bool :=
  if state = 0 then
    if byte = 0x1B then (1, true) else (0, false)
  else if state = 1 then
    if byte = 0x5B ∨ byte = 0x4F then (2, true) else (0, true)
  else if state = 2 ∧ 0x40 ≤ byte ∧ byte ≤ 0x7E then
    (0, true)
  else
    (state, true)

/-- One byte that passed the filter: the line it leaves, and what it delivers. -/
def lineStep (line : List UInt8) (byte : UInt8) : List UInt8 × List UInt8 :=
  if byte = 0x03 then
    ([], [0x03])
  else if byte = 0x0C then
    (line, [0x0C])
  else if byte = 0x08 ∨ byte = 0x7F then
    (line.dropLast, [])
  else if byte = 0x0A then
    ([], if line.length + 1 < ttyLineBufferSize then line ++ [0x0A] else line)
  else if byte = 0x04 then
    if line = [] then ([], [0x04]) else ([], line)
  else if ttyIsPrintable byte = true ∧ line.length + 1 < ttyLineBufferSize then
    (line ++ [byte], [])
  else
    (line, [])

/-- What canonical mode goes by: of all variables of the TTY these two decide what a byte does to
the line and what it delivers. -/
structure Discipline : Type where
  /-- the state of the escape filter -/
  escape : ℕ
  /-- the line buffer -/
  line : List UInt8
  deriving DecidableEq, Repr

/-- One byte: the next state, and what is delivered. -/
def Discipline.step (d : Discipline) (byte : UInt8) : Discipline × List UInt8 :=
  let r := escapeStep d.escape byte
  if r.2 then
    (⟨r.1, d.line⟩, [])
  else
    (⟨r.1, (lineStep d.line byte).1⟩, (lineStep d.line byte).2)

/-- What canonical mode goes by, in a system. -/
def Sys.discipline (s : Sys) : Discipline := ⟨s.tty.ttyEscapeState, s.tty.ttyLine⟩

/-- `s'` is `s` after a byte that took the discipline to `d` and delivered `out`. Everything later
says about reception is derived from this. -/
structure Received (s s' : Sys) (d : Discipline) (out : List UInt8) : Prop where
  /-- what is delivered -/
  pushes : Pushes s s' out
  /-- the discipline -/
  discipline : s'.discipline = d
  /-- the mode -/
  canonical : s'.tty.ttyCanonical = s.tty.ttyCanonical
  /-- and whether it echoes -/
  echo : s'.tty.ttyEcho = s.tty.ttyEcho

namespace Received

variable {s s' s'' : Sys} {d : Discipline} {out : List UInt8}

/-- Nothing but the discipline changes. -/
theorem quiet (h : ReaderOk s) (hptys : s'.ptys = s.ptys)
    (hring : s'.tty.ttyReadQueue = s.tty.ttyReadQueue)
    (hpty : s'.tty.ttySessionPty = s.tty.ttySessionPty) (hd : s'.discipline = d)
    (hcanon : s'.tty.ttyCanonical = s.tty.ttyCanonical)
    (hecho : s'.tty.ttyEcho = s.tty.ttyEcho) : Received s s' d [] :=
  ⟨(Pushes.nil h).congr_right hptys hring hpty, hd, hcanon, hecho⟩

/-- Calls to the console do not count. -/
theorem emit_if (h : Received s s' d out) (b : Bool) (cs : List Call) :
    Received s (if b then s'.emit cs else s') d out := by
  cases b
  · exact h
  · exact ⟨h.pushes.congr_right rfl rfl rfl, h.discipline, h.canonical, h.echo⟩

/-- What happened before, if it pushed nothing. -/
theorem congr_left (h : Received s' s'' d out) (hptys : s'.ptys = s.ptys)
    (hring : s'.tty.ttyReadQueue = s.tty.ttyReadQueue)
    (hpty : s'.tty.ttySessionPty = s.tty.ttySessionPty)
    (hcanon : s'.tty.ttyCanonical = s.tty.ttyCanonical)
    (hecho : s'.tty.ttyEcho = s.tty.ttyEcho) : Received s s'' d out :=
  ⟨h.pushes.congr_left hptys hring hpty, h.discipline, h.canonical.trans hcanon,
    h.echo.trans hecho⟩

/-- A branch of the code beside a branch of the discipline. -/
theorem ite {p : Prop} [Decidable p] {a b : Sys} {e : ℕ} {x y : List UInt8 × List UInt8}
    (ha : p → Received s a ⟨e, x.1⟩ x.2) (hb : ¬p → Received s b ⟨e, y.1⟩ y.2) :
    Received s (if p then a else b) ⟨e, (if p then x else y).1⟩ (if p then x else y).2 := by
  split
  · exact ha ‹_›
  · exact hb ‹_›

end Received

/-- The filter of the source is `escapeStep`, with a counter. -/
theorem ttyHandleEscapeFilter_eq (s : Sys) (byte : UInt8) :
    ∃ n, ttyHandleEscapeFilter s byte =
      ({ s with
          tty.ttyEscapeState := (escapeStep s.tty.ttyEscapeState byte).1
          tty.ttyEscapeDiscardCount := n }, (escapeStep s.tty.ttyEscapeState byte).2) := by
  refine ⟨(ttyHandleEscapeFilter s byte).1.tty.ttyEscapeDiscardCount, ?_⟩
  rw [ttyHandleEscapeFilter, escapeStep]
  dsimp only
  split_ifs with h0
  · rfl
  · rw [← h0]
  all_goals rfl

/-- `tty_enqueue_read` leaves the discipline alone. -/
theorem ttyEnqueueRead_received {s : Sys} (h : ReaderOk s) (byte : UInt8) :
    Received s (ttyEnqueueRead s byte).1 s.discipline [byte] := by
  have htty := ttyEnqueueRead_tty s byte
  refine ⟨(ttyEnqueueRead_pushes h byte).1, ?_, (congrArg Tty.ttyCanonical htty).trans rfl,
    (congrArg Tty.ttyEcho htty).trans rfl⟩
  rw [Sys.discipline, htty]
  rfl

/-- A flush empties the line buffer. -/
theorem ttyFlushLineBuffer_received {s : Sys} (h : ReaderOk s) :
    Received s (ttyFlushLineBuffer s) ⟨s.tty.ttyEscapeState, []⟩ s.tty.ttyLine := by
  obtain ⟨hpush, -, htty⟩ := ttyFlushLineBuffer_pushes h
  refine ⟨hpush, ?_, (congrArg Tty.ttyCanonical htty).trans rfl,
    (congrArg Tty.ttyEcho htty).trans rfl⟩
  rw [Sys.discipline, htty]

/-- The newline branch: the line goes out with its newline, if that fits the buffer. -/
theorem ttyHandleNewline_received {s : Sys} (h : ReaderOk s) :
    Received s (ttyHandleNewline s) ⟨s.tty.ttyEscapeState, []⟩
      (if s.tty.ttyLine.length + 1 < ttyLineBufferSize then s.tty.ttyLine ++ [0x0A]
        else s.tty.ttyLine) := by
  -- what the flush finds, whichever way the newline went
  have hflush : ∀ s₁ : Sys, s₁.ptys = s.ptys → s₁.tty.ttyReadQueue = s.tty.ttyReadQueue →
      s₁.tty.ttySessionPty = s.tty.ttySessionPty →
      s₁.tty.ttyCanonical = s.tty.ttyCanonical → s₁.tty.ttyEcho = s.tty.ttyEcho →
      s₁.tty.ttyEscapeState = s.tty.ttyEscapeState →
      Received s { ttyFlushLineBuffer s₁ with
          tty.ttyLineTruncated := false } ⟨s.tty.ttyEscapeState, []⟩ s₁.tty.ttyLine := by
    intro s₁ hptys hring hpty hcanon hecho hescape
    have hr := (ttyFlushLineBuffer_received (s := s₁) ⟨hptys ▸ h.ptys, hring ▸ h.ring⟩).congr_left
      hptys hring hpty hcanon hecho
    rw [hescape] at hr
    exact ⟨hr.pushes.congr_right rfl rfl rfl, hr.discipline, hr.canonical, hr.echo⟩
  rw [ttyHandleNewline]
  dsimp only
  split_ifs
  · exact hflush (Sys.emit _ _) rfl rfl rfl rfl rfl rfl
  · exact hflush _ rfl rfl rfl rfl rfl rfl
  · exact hflush (Sys.emit _ _) rfl rfl rfl rfl rfl rfl
  · exact hflush _ rfl rfl rfl rfl rfl rfl

/-- The data branch: the byte joins the line, if that fits the buffer. -/
theorem ttyHandleData_received {s : Sys} (h : ReaderOk s) (byte : UInt8) :
    Received s (ttyHandleData s byte)
      ⟨s.tty.ttyEscapeState,
        if s.tty.ttyLine.length + 1 < ttyLineBufferSize then s.tty.ttyLine ++ [byte]
        else s.tty.ttyLine⟩ [] := by
  rw [ttyHandleData]
  by_cases hfull : s.tty.ttyLine.length + 1 ≥ ttyLineBufferSize
  · rw [if_pos hfull, if_neg (Nat.not_lt.mpr hfull)]
    dsimp only
    split_ifs <;> exact .quiet h rfl rfl rfl rfl rfl rfl
  · rw [if_neg hfull, if_pos (Nat.not_le.mp hfull)]
    have hline : Received s { s with tty.ttyLine := s.tty.ttyLine ++ [byte] }
        ⟨s.tty.ttyEscapeState, s.tty.ttyLine ++ [byte]⟩ [] :=
      .quiet h rfl rfl rfl rfl rfl rfl
    exact hline.emit_if _ _

/-- The erase branch: the last byte of the line goes, if there is one. -/
theorem ttyErase_received {s : Sys} (h : ReaderOk s) :
    Received s
      (if s.tty.ttyLine.length > 0 then
        if s.tty.ttyEcho then
          { s with tty.ttyLine := s.tty.ttyLine.dropLast }.emit [.consoleBackspace]
        else { s with tty.ttyLine := s.tty.ttyLine.dropLast }
      else s)
      ⟨s.tty.ttyEscapeState, s.tty.ttyLine.dropLast⟩ [] := by
  split_ifs with hlen
  · exact .quiet h rfl rfl rfl rfl rfl rfl
  · exact .quiet h rfl rfl rfl rfl rfl rfl
  · have hnil : s.tty.ttyLine = [] := List.length_eq_zero_iff.mp (Nat.eq_zero_of_not_pos hlen)
    have hdrop : s.tty.ttyLine.dropLast = s.tty.ttyLine := by rw [hnil, List.dropLast_nil]
    rw [hdrop]
    exact .quiet h rfl rfl rfl rfl rfl rfl

/-- What no other branch takes is dropped, or it is data. -/
theorem ttyRest_received {s : Sys} (h : ReaderOk s) (byte : UInt8) :
    Received s (if !ttyIsPrintable byte then s else ttyHandleData s byte)
      ⟨s.tty.ttyEscapeState,
        (if ttyIsPrintable byte = true ∧ s.tty.ttyLine.length + 1 < ttyLineBufferSize then
          (s.tty.ttyLine ++ [byte], []) else (s.tty.ttyLine, []) : List UInt8 × List UInt8).1⟩
      (if ttyIsPrintable byte = true ∧ s.tty.ttyLine.length + 1 < ttyLineBufferSize then
          (s.tty.ttyLine ++ [byte], []) else (s.tty.ttyLine, []) : List UInt8 × List UInt8).2 := by
  cases hprint : ttyIsPrintable byte with
  | false =>
    rw [if_pos Bool.not_false, if_neg fun hc => Bool.false_ne_true hc.1]
    exact .quiet h rfl rfl rfl rfl rfl rfl
  | true =>
    have hdata := ttyHandleData_received h byte
    rw [if_neg (by simp)]
    by_cases hfull : s.tty.ttyLine.length + 1 < ttyLineBufferSize
    · rw [if_pos hfull] at hdata
      rw [if_pos ⟨rfl, hfull⟩]
      exact hdata
    · rw [if_neg hfull] at hdata
      rw [if_neg fun hc => hfull hc.2]
      exact hdata

/-- **`tty_handle_canonical`** makes the steps of the discipline. The discipline knows nothing of
echo, counters and queues, so what it delivers can be compared from run to run. -/
theorem ttyHandleCanonical_received {s : Sys} (h : ReaderOk s) (byte : UInt8) :
    Received s (ttyHandleCanonical s byte) (s.discipline.step byte).1
      (s.discipline.step byte).2 := by
  obtain ⟨n, hfilter⟩ := ttyHandleEscapeFilter_eq s byte
  rw [ttyHandleCanonical, hfilter, Discipline.step]
  set s₁ : Sys := { s with
    tty.ttyEscapeState := (escapeStep s.tty.ttyEscapeState byte).1
    tty.ttyEscapeDiscardCount := n } with hs₁
  have h₁ : ReaderOk s₁ := ⟨h.ptys, h.ring⟩
  change Received s (if (escapeStep s.tty.ttyEscapeState byte).2 = true then s₁ else _)
    (if (escapeStep s.tty.ttyEscapeState byte).2 = true then _ else _ : Discipline × _).1
    (if (escapeStep s.tty.ttyEscapeState byte).2 = true then _ else _ : Discipline × _).2
  split
  · exact .quiet h rfl rfl rfl rfl rfl rfl
  refine Received.congr_left (?_ : Received s₁ _ _ _) rfl rfl rfl rfl rfl
  have hline : s.discipline.line = s₁.tty.ttyLine := rfl
  dsimp only
  rw [hline, lineStep]
  refine .ite (fun hb => ?_) fun _ => ?_
  · -- the interrupt throws the line away before it goes out itself
    subst hb
    have hempty : ReaderOk { s₁ with tty.ttyLine := [] } := ⟨h.ptys, h.ring⟩
    exact (ttyEnqueueRead_received hempty 0x03).emit_if _ _ |>.congr_left rfl rfl rfl rfl rfl
  refine .ite (fun hb => ?_) fun _ => ?_
  · subst hb
    exact ttyEnqueueRead_received h₁ 0x0C
  refine .ite (fun _ => ttyErase_received h₁) fun _ => ?_
  refine .ite (fun _ => ttyHandleNewline_received h₁) fun _ => ?_
  refine .ite (fun hb => ?_) fun _ => ?_
  · subst hb
    by_cases hnil : s₁.tty.ttyLine = []
    · have hread := ttyEnqueueRead_received h₁ 0x04
      rw [Sys.discipline, hnil] at hread
      rw [if_pos hnil, if_pos (List.length_eq_zero_iff.mpr hnil)]
      exact hread
    · rw [if_neg hnil, if_neg (mt List.length_eq_zero_iff.mp hnil)]
      exact ttyFlushLineBuffer_received h₁
  exact ttyRest_received h₁ byte

/-- One received byte in canonical mode. -/
theorem ttyReceive_received {s : Sys} (h : ReaderOk s) (hcanon : s.tty.ttyCanonical = true)
    (byte : UInt8) :
    Received s (ttyReceive s byte) (s.discipline.step byte).1 (s.discipline.step byte).2 := by
  rw [ttyReceive, if_pos hcanon]
  have hcount : ReaderOk { s with tty.ttyRxCount := s.tty.ttyRxCount + 1 } := ⟨h.ptys, h.ring⟩
  exact (ttyHandleCanonical_received hcount byte).congr_left rfl rfl rfl rfl rfl

end WaluOs
