import WaluOs.Tty

/-!
# The shell

`shell_poll` lets the TTY take in what the keyboard has queued and then reads
its own input, from the active session's PTY if there is one and from the TTY's
queue otherwise. The two loops of the source have the same body, `shellByte`.

Every loop takes a fuel argument that is larger than the number of times the
source can go around it.
-/

namespace WaluOs

/-- `console_write` of a literal. Most of what commands print is of this kind. -/
def say (s : String) : Call := .consoleWrite (text s)

/-! ## Commands -/

/-- `shell_prompt` -/
def shellPrompt (s : Sys) : Sys := s.emit [say "\x1b[1;32mwalu\x1b[0m> "]

/-- `cmd_help` -/
def cmdHelp (s : Sys) : Sys :=
  s.emit
    [say "Commands:\n",
      say "  help     - show this help\n",
      say "  clear    - clear the screen\n",
      say "  meminfo  - show memory/timer stats\n",
      say "  kbdinfo  - show keyboard modifier/lock state\n",
      say "  ttyinfo  - show tty RX/drop counters\n",
      say "  session  - show active session and controlling pty\n",
      say "  health   - show subsystem fault/overflow counters\n",
      say "  selftest - run input/pty stress self-test\n",
      say "  ansi     - print ANSI color demo\n",
      say "  echo ... - print text\n"]

/-- `cmd_meminfo` -/
def cmdMeminfo (s : Sys) : Sys :=
  s.emit
    [say "Memory total: ", .consoleWriteDec s.gauges.pmmTotalKib, say " KiB\n",
      say "Memory used : ", .consoleWriteDec s.gauges.pmmUsedKib, say " KiB\n",
      say "Memory free : ", .consoleWriteDec s.gauges.pmmFreeKib, say " KiB\n",
      say "Timer ticks : ", .consoleWriteDec s.gauges.pitTicks, say "\n",
      say "Rust history entries: ", .consoleWriteDec s.rustHistoryCount, say "\n"]

/-- The names of the set bits, as `cmd_kbdinfo` prints them. -/
def bitNames (bits : UInt8) (names : List (UInt8 × String)) : List Call :=
  if bits = 0 then
    [say "none"]
  else
    names.filterMap fun p => if bits &&& p.1 ≠ 0 then some (say p.2) else none

/-- `cmd_kbdinfo` -/
def cmdKbdinfo (s : Sys) : Sys :=
  let modifiers := s.kbd.kbdModifiers
  let locks := s.kbd.kbdLocks
  s.emit
    ([say "Modifiers: 0x", .consoleWriteHex modifiers.toUInt64, say " ("] ++
      bitNames modifiers
        [(kbdModShift, "SHIFT "), (kbdModCtrl, "CTRL "), (kbdModAlt, "ALT "),
          (kbdModAltgr, "ALTGR "), (kbdModMeta, "META ")] ++
      [say ")\n", say "Locks    : 0x", .consoleWriteHex locks.toUInt64, say " ("] ++
      bitNames locks
        [(kbdLockCaps, "CAPS "), (kbdLockNum, "NUM "), (kbdLockScroll, "SCROLL ")] ++
      [say ")\n"])

/-- `cmd_ansi` -/
def cmdAnsi (s : Sys) : Sys :=
  s.emit
    [say "ANSI demo:\n",
      say "  \x1b[1;31mred\x1b[0m ",
      say "\x1b[1;32mgreen\x1b[0m ",
      say "\x1b[1;33myellow\x1b[0m ",
      say "\x1b[1;34mblue\x1b[0m ",
      say "\x1b[1;35mmagenta\x1b[0m ",
      say "\x1b[1;36mcyan\x1b[0m\n",
      say "UTF-8 sample bytes: cafe, naive, jalapeno\n"]

/-- `cmd_ttyinfo` -/
def cmdTtyinfo (s : Sys) : Sys :=
  s.emit
    [say "TTY rx bytes: ", .consoleWriteDec s.tty.ttyRxCount, say "\n",
      say "TTY dropped : ", .consoleWriteDec s.tty.ttyDropCount, say "\n",
      say "TTY line ovf : ", .consoleWriteDec s.tty.ttyLineOverflowCount, say "\n",
      say "TTY esc disc : ", .consoleWriteDec s.tty.ttyEscapeDiscardCount, say "\n"]

/-- `cmd_health` -/
def cmdHealth (s : Sys) : Sys :=
  s.emit
    [say "KBD scancodes : ", .consoleWriteDec s.kbd.kbdRxScancodeCount, say "\n",
      say "KBD drop byte : ", .consoleWriteDec s.kbd.kbdByteQueue.dropCount, say "\n",
      say "KBD drop event: ", .consoleWriteDec s.kbd.kbdEventQueue.dropCount, say "\n",
      say "TTY dropped   : ", .consoleWriteDec s.tty.ttyDropCount, say "\n",
      say "PTY dropped   : ", .consoleWriteDec s.ptys.gPtyDroppedBytes, say "\n",
      say "PTY invalid   : ", .consoleWriteDec s.ptys.gPtyInvalidOps, say "\n",
      say "Session invalid: ", .consoleWriteDec s.sessions.gSessionInvalidOps, say "\n"]

/-- `cmd_session`; a negative id or PTY is printed as 0. -/
def cmdSession (s : Sys) : Sys :=
  s.emit
    [say "Session active: ",
      .consoleWriteDec (UInt64.ofNat (sessionActiveId s.sessions).toNat), say "\n",
      say "Session pty   : ",
      .consoleWriteDec (UInt64.ofNat (sessionActivePty s.sessions).toNat), say "\n"]

/-- Read a PTY until it is empty, `chunk` bytes at a time, and return how many
bytes there were. -/
def drainPty (ptyId : ℤ) (chunk : ℕ) : ℕ → Ptys → Ptys × ℕ
  | 0, p => (p, 0)
  | fuel + 1, p =>
    let r := ptySlaveRead p ptyId true chunk
    if r.2.length = 0 then
      (r.1, 0)
    else
      let rest := drainPty ptyId chunk fuel r.1
      (rest.1, r.2.length + rest.2)

/-- `drain_active_pty` -/
def drainActivePty (s : Sys) : Sys :=
  let ptyId := sessionActivePty s.sessions
  if ptyId < 0 then s else { s with ptys := (drainPty ptyId 128 ptyQueueSize s.ptys).1 }

/-- `cmd_selftest`. It takes a new PTY and never gives it back, and it types a line of its own
into the TTY that the shell is reading; so it is the one command that changes more than what is
printed. -/
def cmdSelftest (s : Sys) : Sys :=
  let writeBuf := (List.range 4096).map fun i => UInt8.ofNat ('A'.toNat + i % 26)
  let a := ptyAlloc s.ptys
  if a.2 < 0 then
    { s with ptys := a.1 }.emit [say "selftest: pty alloc failed\n"]
  else
    let w := ptyMasterWrite a.1 a.2 (some writeBuf)
    let d := drainPty a.2 256 ptyQueueSize w.1
    let ok := !(decide (w.2 = 0) || decide (d.2 ≠ w.2))
    let s := { s with ptys := (ptyMasterWrite d.1 (-1) (some (writeBuf.take 1))).1 }
    let overBefore := s.tty.ttyLineOverflowCount
    let s := ttyTestInjectBytes s (List.replicate 899 0x78 ++ [0x0A])
    let ok := if s.tty.ttyLineOverflowCount ≤ overBefore then false else ok
    (drainActivePty s).emit [say "selftest: ", say (if ok then "PASS\n" else "FAIL\n")]

/-- `execute_command`, given the bytes of its C string. The line goes to the history without its
leading blanks, whether or not it is a command that exists. -/
def executeCommand (s : Sys) (line : List UInt8) : Sys :=
  let line := line.dropWhile (· == 0x20)
  if line = [] then
    s
  else
    let s := { s with rustHistoryCount := s.rustHistoryCount + 1 }.emit [.rustHistoryPush line]
    if line = text "help" then cmdHelp s
    else if line = text "clear" then s.emit [.consoleClear]
    else if line = text "meminfo" then cmdMeminfo s
    else if line = text "kbdinfo" then cmdKbdinfo s
    else if line = text "ansi" then cmdAnsi s
    else if line = text "ttyinfo" then cmdTtyinfo s
    else if line = text "health" then cmdHealth s
    else if line = text "session" then cmdSession s
    else if line = text "selftest" then cmdSelftest s
    else if line = text "echo" then s.emit [.consolePutc 0x0A]
    else if line.take 5 = text "echo " then
      s.emit [.consoleWrite (line.drop 5), .consolePutc 0x0A]
    else
      s.emit [say "Unknown command: ", .consoleWrite line, .consolePutc 0x0A]

/-! ## Reading -/

/-- The C string at the start of a `shell_line`-sized array. -/
def cString (a : ℕ → UInt8) : List UInt8 :=
  ((List.range shellLineMax).map a).takeWhile (· != 0)

/-- `shell_init` -/
def shellInit (s : Sys) : Sys :=
  shellPrompt (ttySetEcho (ttySetCanonical { s with shell.shellLen := 0 } true) true)

/-- The body of both loops of `shell_poll`, for one byte. -/
def shellByte (s : Sys) (c : UInt8) : Sys :=
  if c = 0x03 then
    shellPrompt { s with shell.shellLen := 0 }
  else if c = 0x0C then
    let s := shellPrompt (s.emit [.consoleClear])
    if s.shell.shellLen > 0 then s.emit [.consoleWrite (cString s.shell.shellLine)] else s
  else if c = 0x0A then
    let s := { s with
      shell.shellLine := Function.update s.shell.shellLine s.shell.shellLen 0 }
    let line := cString s.shell.shellLine
    let s := executeCommand (s.emit [.executeCommand line]) line
    shellPrompt { s with shell.shellLen := 0 }
  else if c = 0x04 then
    s
  else if (c < 0x20 ∨ c = 0x7F) ∧ c ≠ 0x09 then
    s
  else if s.shell.shellLen + 1 < shellLineMax then
    { s with
      shell.shellLine := Function.update s.shell.shellLine s.shell.shellLen c
      shell.shellLen := s.shell.shellLen + 1 }
  else
    s

/-- More often than the loops of `shell_poll` can go around: the queue they
read holds at most 2047 bytes, and each `selftest` line in it adds at most 511
without a newline. -/
abbrev shellFuel : ℕ := 2 ^ 22

/-- The PTY loop of `shell_poll`. -/
def shellPtyLoop (ptyId : ℤ) : ℕ → Sys → Sys
  | 0, s => s
  | fuel + 1, s =>
    let r := ptySlaveRead s.ptys ptyId true 128
    let s := { s with ptys := r.1 }
    if r.2.length = 0 then s else shellPtyLoop ptyId fuel (r.2.foldl shellByte s)

/-- The TTY loop of `shell_poll`. -/
def shellTtyLoop : ℕ → Sys → Sys
  | 0, s => s
  | fuel + 1, s =>
    match ttyPopChar s with
    | (s, none) => s
    | (s, some c) => shellTtyLoop fuel (shellByte s c)

/-- `shell_poll` -/
def shellPoll (s : Sys) : Sys :=
  let s := ttyPollInput s
  let ptyId := sessionActivePty s.sessions
  if 0 ≤ ptyId then shellPtyLoop ptyId shellFuel s else shellTtyLoop shellFuel s

/-! ## Boot -/

/-- All variables zero, a state to start examples from. It is not quite what the loader leaves:
`tty_canonical` and `tty_echo` are true there and the ids of the session and of its PTY are -1.
`kernel_main` sets all of these before it reads any. -/
def sysZero : Sys :=
  { kbd :=
      { kbdByteQueue := ⟨⟨fun _ => 0, 0, 0⟩, 0, [], 0⟩
        kbdEventQueue := ⟨⟨fun _ => ⟨.keyNone, 0, 0, 0, false, false⟩, 0, 0⟩, 0, [], 0⟩
        kbdExtended := false
        kbdE1Skip := 0
        kbdModifiers := 0
        kbdLocks := 0
        kbdKeyDown := fun _ => false
        kbdRxScancodeCount := 0 }
    ptys := ⟨fun _ => PtySlot.zero, 0, 0⟩
    sessions := ⟨fun _ => ⟨false, 0, 0, 0⟩, 0, 0⟩
    tty :=
      { ttyReadQueue := ⟨fun _ => 0, 0, 0⟩
        ttyLine := []
        ttyCanonical := false
        ttyEcho := false
        ttyEscapeState := 0
        ttyRxCount := 0
        ttyDropCount := 0
        ttyLineOverflowCount := 0
        ttyEscapeDiscardCount := 0
        ttyLineTruncated := false
        ttySessionId := 0
        ttySessionPty := 0 }
    shell := ⟨fun _ => 0, 0⟩
    rustHistoryCount := 0
    gauges := ⟨0, 0, 0, 0⟩
    calls := [] }

/-- `rust_boot_banner` -/
def rustBootBanner : List UInt8 := text "Rust subsystem online (no_std)"

/-- `kernel_main` from `keyboard_init` to the main loop: the input side, one session with its PTY,
and what is printed on the way. -/
def kernelInput (s : Sys) : Sys :=
  let s := ttyInit { s with kbd := keyboardInit s.kbd }
  let c := sessionCreate sessionInit 1
  let a := ptyAlloc ptyInit
  let s := { s with ptys := a.1, sessions := c.1 }
  let r := sessionSetControllingPty c.1 a.1 c.2 a.2
  let t := sessionSetActive r.1 c.2
  let s :=
    if c.2 < 0 ∨ a.2 < 0 then
      s.emit [say "Session initialization degraded\n"]
    else if r.2 = false then
      { s with sessions := r.1 }.emit [say "Session initialization degraded\n"]
    else if t.2 = false then
      { s with sessions := t.1 }.emit [say "Session initialization degraded\n"]
    else
      (ttyAttachSession { s with sessions := t.1 } c.2 a.2).emit [say "Session initialized\n"]
  shellInit (s.emit [say "Interrupts initialized\n", .consoleWrite rustBootBanner,
    .consolePutc 0x0A, say "Kernel ready. Type `help`.\n"])

end WaluOs
