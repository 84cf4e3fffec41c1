import WaluOs.Keyboard
import WaluOs.Session

/-!
# The line discipline

`Sys` is the input side of the kernel: the static variables of the keyboard,
PTY, session, TTY and shell modules. The console takes no part in it (no call
into the console returns anything to its caller here), so console output is kept
as a trace of calls, which a console model can replay.

The line buffer is the list of its first `tty_line_len` bytes; the bytes behind
them are never read.
-/

namespace WaluOs

/-- `TTY_READ_QUEUE_SIZE` -/
abbrev ttyReadQueueSize : ℕ := 2048

/-- `TTY_LINE_BUFFER_SIZE` -/
abbrev ttyLineBufferSize : ℕ := 512

/-- `SHELL_LINE_MAX` -/
abbrev shellLineMax : ℕ := 128

/-- The bytes of a string literal, which in the source are all ASCII. -/
def text (s : String) : List UInt8 := s.toList.map fun c => UInt8.ofNat c.toNat

/-- The calls that leave the input side, and the calls of `execute_command`. What the kernel shows
and what it executes are read off the sequence of these; no module of the input side reads it
back. -/
inductive Call : Type where
  /-- `console_putc` -/
  | consolePutc : UInt8 → Call
  /-- `console_write`, with the bytes before the terminating NUL -/
  | consoleWrite : List UInt8 → Call
  /-- `console_write_dec` -/
  | consoleWriteDec : UInt64 → Call
  /-- `console_write_hex` -/
  | consoleWriteHex : UInt64 → Call
  /-- `console_backspace` -/
  | consoleBackspace : Call
  /-- `console_clear` -/
  | consoleClear : Call
  /-- `rust_history_push` -/
  | rustHistoryPush : List UInt8 → Call
  /-- `execute_command`, with the bytes of its C string -/
  | executeCommand : List UInt8 → Call
  deriving DecidableEq, Repr

/-- The TTY module's static variables. Of the line buffer only the bytes in use are kept, since
the code reads no others. -/
structure Tty : Type where
  /-- `tty_read_queue`, `tty_read_head`, `tty_read_tail` -/
  ttyReadQueue : SlotRing UInt8
  /-- the first `tty_line_len` bytes of `tty_line_buffer` -/
  ttyLine : List UInt8
  /-- `tty_canonical` -/
  ttyCanonical : Bool
  /-- `tty_echo` -/
  ttyEcho : Bool
  /-- `tty_escape_state` -/
  ttyEscapeState : ℕ
  /-- `tty_rx_count` -/
  ttyRxCount : UInt64
  /-- `tty_drop_count` -/
  ttyDropCount : UInt64
  /-- `tty_line_overflow_count` -/
  ttyLineOverflowCount : UInt64
  /-- `tty_escape_discard_count` -/
  ttyEscapeDiscardCount : UInt64
  /-- `tty_line_truncated` -/
  ttyLineTruncated : Bool
  /-- `tty_session_id` -/
  ttySessionId : ℤ
  /-- `tty_session_pty` -/
  ttySessionPty : ℤ

/-- The shell's static variables. The bytes of `shell_line` behind `shell_len` are kept too:
`console_write` goes on to the next NUL, so they can be seen. -/
structure Shell : Type where
  /-- `shell_line` -/
  shellLine : ℕ → UInt8
  /-- `shell_len` -/
  shellLen : ℕ

/-- Counters of other modules that commands print. The input side never changes them; only the
tick of the timer moves on beside it. -/
structure Gauges : Type where
  /-- `pmm_total_kib` -/
  pmmTotalKib : UInt64
  /-- `pmm_used_kib` -/
  pmmUsedKib : UInt64
  /-- `pmm_free_kib` -/
  pmmFreeKib : UInt64
  /-- `pit_ticks` -/
  pitTicks : UInt64

/-- The input side of the kernel: keyboard, PTYs, sessions, TTY and shell, and the calls that they
have made. The functions of these modules go from one such state to the next. -/
structure Sys : Type where
  /-- the keyboard driver -/
  kbd : Kbd
  /-- the PTY table -/
  ptys : Ptys
  /-- the session table -/
  sessions : Sessions
  /-- the line discipline -/
  tty : Tty
  /-- the shell -/
  shell : Shell
  /-- `rust_history_count` -/
  rustHistoryCount : UInt64
  /-- what commands read from elsewhere -/
  gauges : Gauges
  /-- trace: the calls made so far, oldest first -/
  calls : List Call

/-- Append calls to the trace. Nothing else of the state changes. -/
def Sys.emit (s : Sys) (cs : List Call) : Sys := { s with calls := s.calls ++ cs }

/-! ## Delivering to the reader -/

/-- `tty_enqueue_read` -/
def ttyEnqueueRead (s : Sys) (byte : UInt8) : Sys × Bool :=
  if 0 ≤ s.tty.ttySessionPty ∧ ptyIsValid s.ptys s.tty.ttySessionPty = true then
    let r := ptyMasterWrite s.ptys s.tty.ttySessionPty (some [byte])
    if r.2 = 1 then
      ({ s with ptys := r.1 }, true)
    else
      ({ s with ptys := r.1, tty.ttyDropCount := s.tty.ttyDropCount + 1 }, false)
  else
    let q := s.tty.ttyReadQueue
    let next := (q.head + 1) % ttyReadQueueSize
    if next = q.tail then
      ({ s with tty.ttyDropCount := s.tty.ttyDropCount + 1 }, false)
    else
      ({ s with tty.ttyReadQueue :=
          { q with slots := Function.update q.slots q.head byte, head := next } }, true)

/-- `tty_flush_line_buffer` -/
def ttyFlushLineBuffer (s : Sys) : Sys :=
  let s := s.tty.ttyLine.foldl (fun s b => (ttyEnqueueRead s b).1) s
  { s with tty.ttyLine := [] }

/-! ## The two modes -/

/-- `tty_is_printable` -/
def ttyIsPrintable (byte : UInt8) : Bool := decide (0x20 ≤ byte) || byte == 0x09

/-- `tty_handle_escape_filter`, with `*consumed` as its second result. -/
def ttyHandleEscapeFilter (s : Sys) (byte : UInt8) : Sys × Bool :=
  if s.tty.ttyEscapeState = 0 then
    if byte = 0x1B then
      ({ s with
          tty.ttyEscapeState := 1
          tty.ttyEscapeDiscardCount := s.tty.ttyEscapeDiscardCount + 1 }, true)
    else
      (s, false)
  else
    let s := { s with tty.ttyEscapeDiscardCount := s.tty.ttyEscapeDiscardCount + 1 }
    if s.tty.ttyEscapeState = 1 then
      if byte = 0x5B ∨ byte = 0x4F then
        ({ s with tty.ttyEscapeState := 2 }, true)
      else
        ({ s with tty.ttyEscapeState := 0 }, true)
    else if s.tty.ttyEscapeState = 2 ∧ 0x40 ≤ byte ∧ byte ≤ 0x7E then
      ({ s with tty.ttyEscapeState := 0 }, true)
    else
      (s, true)

/-- The newline branch of `tty_handle_canonical`. -/
def ttyHandleNewline (s : Sys) : Sys :=
  let s :=
    if s.tty.ttyLine.length + 1 < ttyLineBufferSize then
      { s with tty.ttyLine := s.tty.ttyLine ++ [0x0A] }
    else
      { s with
        tty.ttyDropCount := s.tty.ttyDropCount + 1
        tty.ttyLineOverflowCount := s.tty.ttyLineOverflowCount + 1
        tty.ttyLineTruncated := true }
  let s := if s.tty.ttyEcho then s.emit [.consolePutc 0x0A] else s
  let s := ttyFlushLineBuffer s
  { s with tty.ttyLineTruncated := false }

/-- The data branch of `tty_handle_canonical`. -/
def ttyHandleData (s : Sys) (byte : UInt8) : Sys :=
  if s.tty.ttyLine.length + 1 ≥ ttyLineBufferSize then
    let s := { s with
      tty.ttyDropCount := s.tty.ttyDropCount + 1
      tty.ttyLineOverflowCount := s.tty.ttyLineOverflowCount + 1 }
    let s := if !s.tty.ttyLineTruncated && s.tty.ttyEcho then s.emit [.consolePutc 0x07] else s
    { s with tty.ttyLineTruncated := true }
  else
    let s := { s with tty.ttyLine := s.tty.ttyLine ++ [byte] }
    if s.tty.ttyEcho then s.emit [.consolePutc byte] else s

/-- `tty_handle_canonical` -/
def ttyHandleCanonical (s : Sys) (byte : UInt8) : Sys :=
  let r := ttyHandleEscapeFilter s byte
  let s := r.1
  if r.2 then
    s
  else if byte = 0x03 then
    let s := (ttyEnqueueRead { s with tty.ttyLine := [] } byte).1
    if s.tty.ttyEcho then s.emit [.consoleWrite (text "^C\n")] else s
  else if byte = 0x0C then
    (ttyEnqueueRead s byte).1
  else if byte = 0x08 ∨ byte = 0x7F then
    if s.tty.ttyLine.length > 0 then
      let s := { s with tty.ttyLine := s.tty.ttyLine.dropLast }
      if s.tty.ttyEcho then s.emit [.consoleBackspace] else s
    else
      s
  else if byte = 0x0A then
    ttyHandleNewline s
  else if byte = 0x04 then
    if s.tty.ttyLine.length = 0 then (ttyEnqueueRead s byte).1 else ttyFlushLineBuffer s
  else if !ttyIsPrintable byte then
    s
  else
    ttyHandleData s byte

/-- `tty_handle_noncanonical` -/
def ttyHandleNoncanonical (s : Sys) (byte : UInt8) : Sys :=
  let s := (ttyEnqueueRead s byte).1
  if s.tty.ttyEcho then s.emit [.consolePutc byte] else s

/-- The body shared by the receive loops of `tty_poll_input` and `tty_test_inject_bytes`: the byte
is counted, and then handled as the mode says. -/
def ttyReceive (s : Sys) (byte : UInt8) : Sys :=
  let s := { s with tty.ttyRxCount := s.tty.ttyRxCount + 1 }
  if s.tty.ttyCanonical then ttyHandleCanonical s byte else ttyHandleNoncanonical s byte

/-! ## The interface -/

/-- `tty_init` -/
def ttyInit (s : Sys) : Sys :=
  { s with
    tty :=
      { ttyReadQueue := { s.tty.ttyReadQueue with head := 0, tail := 0 }
        ttyLine := []
        ttyCanonical := true
        ttyEcho := true
        ttyEscapeState := 0
        ttyRxCount := 0
        ttyDropCount := 0
        ttyLineOverflowCount := 0
        ttyEscapeDiscardCount := 0
        ttyLineTruncated := false
        ttySessionId := -1
        ttySessionPty := -1 } }

/-- The loop of `tty_poll_input`, at most `fuel` times around. -/
def ttyPollLoop : ℕ → Sys → Sys
  | 0, s => s
  | fuel + 1, s =>
    match keyboardPopChar s.kbd with
    | (_, none) => s
    | (kbd, some byte) => ttyPollLoop fuel (ttyReceive { s with kbd := kbd } byte)

/-- `tty_poll_input`; the queue holds fewer bytes than it has slots, so the
loop ends because the queue is empty. -/
def ttyPollInput (s : Sys) : Sys := ttyPollLoop kbdByteQueueSize s

/-- `tty_pop_char` -/
def ttyPopChar (s : Sys) : Sys × Option UInt8 :=
  let q := s.tty.ttyReadQueue
  if q.tail = q.head then
    (s, none)
  else
    ({ s with tty.ttyReadQueue := { q with tail := (q.tail + 1) % ttyReadQueueSize } },
      some (q.slots q.tail))

/-- `tty_set_canonical` -/
def ttySetCanonical (s : Sys) (enabled : Bool) : Sys := { s with tty.ttyCanonical := enabled }

/-- `tty_set_echo` -/
def ttySetEcho (s : Sys) (enabled : Bool) : Sys := { s with tty.ttyEcho := enabled }

/-- `tty_attach_session` -/
def ttyAttachSession (s : Sys) (sessionId ptyId : ℤ) : Sys :=
  { s with tty.ttySessionId := sessionId, tty.ttySessionPty := ptyId }

/-- `tty_test_inject_bytes` -/
def ttyTestInjectBytes (s : Sys) (buf : List UInt8) : Sys := buf.foldl ttyReceive s

end WaluOs
