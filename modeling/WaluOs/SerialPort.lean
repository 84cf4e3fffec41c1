import WaluOs.SerialLog
import WaluOs.Uart16550

/-!
# The serial port

`serial_init` programs the first serial port, and `serial_write_char` waits in front of each byte
until the transmitter has room. How long an access of the port takes is not known: `wait` says how
many cycles go by in front of each.

Whatever state the port was in, and whatever the accesses take, every wait ends and each byte is
sent, once and in order (`serialPort_sends`). So what `Console` collects in `serial` is what comes
out of the machine.

Between two bytes the port is `Ready`: at most one byte waits, and the frame that is being sent is
over after a bounded number of cycles. A write keeps this, so a text is an induction on its bytes.
-/

namespace WaluOs

open Uart16550

/-! ## The code -/

/-- `COM1_PORT` -/
abbrev com1Port : ℕ := 0x3F8

/-- The port, and what the code knows of it. The number of accesses is there for the time that
passes between two of them, which may be any function of it. -/
structure ComPort : Type where
  /-- the device -/
  uart : Uart
  /-- the number of accesses up to now -/
  accesses : ℕ
  /-- `serial_initialized` -/
  serialInitialized : Bool
  deriving DecidableEq, Repr

/-- The time in front of an access. -/
def ComPort.elapse (wait : ℕ → ℕ) (s : ComPort) : ComPort :=
  { s with uart := s.uart.run (wait s.accesses), accesses := s.accesses + 1 }

/-- `outb`, as the port sees it. -/
def comOutb (wait : ℕ → ℕ) (s : ComPort) (port : ℕ) (value : UInt8) : ComPort :=
  let s := s.elapse wait
  if com1Port ≤ port ∧ port < com1Port + 8 then
    { s with uart := s.uart.write (port - com1Port) value }
  else s

/-- `inb` of the line status; the code reads no other register. -/
def comInb (wait : ℕ → ℕ) (s : ComPort) : ComPort × UInt8 :=
  let s := s.elapse wait
  (s, s.uart.lineStatus)

/-- `serial_init`, in the order of its `outb` calls. They set 8 bits, no parity and one stop bit,
the divisor 3, and the queue. -/
def serialInit (wait : ℕ → ℕ) (s : ComPort) : ComPort :=
  let s := comOutb wait s (com1Port + 1) 0x00
  let s := comOutb wait s (com1Port + 3) 0x80
  let s := comOutb wait s (com1Port + 0) 0x03
  let s := comOutb wait s (com1Port + 1) 0x00
  let s := comOutb wait s (com1Port + 3) 0x03
  let s := comOutb wait s (com1Port + 2) 0xC7
  let s := comOutb wait s (com1Port + 4) 0x0B
  { s with serialInitialized := true }

/-- `serial_can_tx` -/
def serialCanTx (wait : ℕ → ℕ) (s : ComPort) : ComPort × Bool :=
  let (s, status) := comInb wait s
  (s, status &&& 0x20 ≠ 0)

/-- The loop of `serial_write_char`. -/
def serialWait (wait : ℕ → ℕ) : ℕ → ComPort → Option ComPort
  | 0, _ => none
  | fuel + 1, s =>
    let (s, can) := serialCanTx wait s
    if can then some s else serialWait wait fuel s

/-- `serial_write_char`, on the port. -/
def serialPortWriteChar (wait : ℕ → ℕ) (fuel : ℕ) (s : ComPort) (c : UInt8) : Option ComPort :=
  if !s.serialInitialized then some s
  else (serialWait wait fuel s).map fun s => comOutb wait s com1Port c

/-- One byte after the other. `serial_write_char` waits for the port before each of them, and
there is no result if it waits too long. -/
def serialPortWrite (wait : ℕ → ℕ) (fuel : ℕ) : ComPort → List UInt8 → Option ComPort
  | s, [] => some s
  | s, c :: bytes =>
    (serialPortWriteChar wait fuel s c).bind fun s => serialPortWrite wait fuel s bytes

/-! ## The port after `serial_init` -/

/-- What is set: words of eight bits, one stop bit, no parity, and 38400 bits a second. -/
def serialSettings (ier : UInt8) : Settings := ⟨ier, 0x03, 0x0B, 0x03, 0x00, true⟩

/-- The frame of a byte: divisor 3, 8 bits, no parity, one stop bit. -/
def comFrame (c : UInt8) : Uart16550.Frame := ⟨c, 3, 3⟩

theorem frame_serialSettings (ier c : UInt8) : (serialSettings ier).frame c = comFrame c := by
  have hbits : wordBits 0x03 = 8 := by decide
  rw [Settings.frame, serialSettings, comFrame]
  dsimp only
  rw [hbits, Nat.mod_eq_of_lt c.toNat_lt, UInt8.ofNat_toNat]
  rfl

theorem frameCycles_serialSettings (ier : UInt8) : (serialSettings ier).frameCycles = 480 := by
  have hbits : halfBits 3 = 20 := by decide
  rw [Settings.frameCycles, frame_serialSettings]
  show 8 * 3 * halfBits 3 = 480
  rw [hbits]

variable {wait : ℕ → ℕ} {s : ComPort}

theorem comOutb_uart (s : ComPort) {register : ℕ} (h : register < 8) (value : UInt8) :
    (comOutb wait s (com1Port + register) value).uart =
      (s.uart.run (wait s.accesses)).write register value := by
  rw [comOutb, if_pos ⟨Nat.le_add_right _ _, Nat.add_lt_add_left h _⟩, Nat.add_sub_cancel_left]
  rfl

theorem comOutb_toSettings (s : ComPort) {register : ℕ} (h : register < 8) (value : UInt8) :
    (comOutb wait s (com1Port + register) value).uart.toSettings =
      s.uart.toSettings.write register value := by
  rw [comOutb_uart s h]
  exact congrArg (fun settings : Settings => settings.write register value)
    (Uart.toSettings_run _ _)

/-- **What is set**, whatever was set before. The interrupts stay as they were if the divisor latch
was open. -/
theorem toSettings_serialInit (s : ComPort) :
    (serialInit wait s).uart.toSettings =
      serialSettings (if s.uart.Latch then s.uart.ier else 0) := by
  rw [serialInit]
  dsimp only
  rw [comOutb_toSettings _ (by decide), comOutb_toSettings _ (by decide),
    comOutb_toSettings _ (by decide), comOutb_toSettings _ (by decide),
    comOutb_toSettings _ (by decide), comOutb_toSettings _ (by decide),
    comOutb_toSettings _ (by decide)]
  have hmcr : (0x0B : UInt8) &&& 0x1F = 0x0B := by decide
  have hfifo : (0xC7 : UInt8) &&& 1 ≠ 0 := by decide
  by_cases h : s.uart.lcr &&& 0x80 = 0 <;>
    simp [Settings.write, Settings.Latch, serialSettings, h, hmcr, hfifo]

/-- Nothing waits. -/
theorem waiting_serialInit (s : ComPort) : (serialInit wait s).uart.waiting = [] := by
  rw [serialInit]
  dsimp only
  rw [comOutb_uart _ (by decide)]
  refine List.eq_nil_of_length_eq_zero (Nat.le_zero.mp ?_)
  refine (Uart.length_waiting_run _ _).trans (Nat.le_of_eq ?_)
  rw [comOutb_uart _ (by decide)]
  exact congrArg List.length (if_pos (Or.inr rfl))

/-- The port as `serial_init` has set it up, with not much to do. The bound is what makes the
waits of the next byte end. -/
structure ComPort.Ready (bound : ℕ) (s : ComPort) : Prop where
  initialized : s.serialInitialized = true
  settings : s.uart.toSettings = serialSettings s.uart.ier
  left : s.uart.left ≤ bound
  waiting : s.uart.waiting.length ≤ 1

theorem serialInit_ready (s : ComPort) :
    (serialInit wait s).Ready (max (serialInit wait s).uart.left 481) where
  initialized := rfl
  settings := by
    rw [toSettings_serialInit]
    rfl
  left := Nat.le_max_left _ _
  waiting := by
    rw [waiting_serialInit]
    exact Nat.zero_le 1

namespace ComPort.Ready

variable {bound : ℕ}

theorem frame (h : s.Ready bound) (c : UInt8) : s.uart.frame c = comFrame c := by
  rw [h.settings, frame_serialSettings]

theorem loop (h : s.Ready bound) : ¬s.uart.Loop := by
  rw [h.settings]
  exact not_not.mpr (show (0x0B : UInt8) &&& 0x10 = 0 by decide)

theorem latch (h : s.Ready bound) : ¬s.uart.Latch := by
  rw [h.settings]
  exact not_not.mpr (show (0x03 : UInt8) &&& 0x80 = 0 by decide)

theorem frameCycles (h : s.Ready bound) : s.uart.frameCycles = 480 := by
  rw [h.settings, frameCycles_serialSettings]

theorem pending (h : s.Ready bound) : s.uart.pending ≤ bound + 482 := by
  have hwaiting := Nat.mul_le_mul_right 482 h.waiting
  have hleft := h.left
  rw [Uart.pending, h.frameCycles]
  omega

/-- Time goes by. -/
theorem elapse (h : s.Ready bound) (hbound : 480 < bound) : (s.elapse wait).Ready bound where
  initialized := h.initialized
  settings := by
    show (s.uart.run _).toSettings = serialSettings (s.uart.run _).toSettings.ier
    rw [Uart.toSettings_run]
    exact h.settings
  left := Uart.left_run h.left (h.frameCycles.trans_lt hbound) _
  waiting := (Uart.length_waiting_run _ _).trans h.waiting

/-- **The wait ends.** -/
theorem waits (hwait : ∀ k, 0 < wait k) (hbound : 480 < bound) (fuel : ℕ) :
    ∀ {s : ComPort}, s.Ready bound → s.uart.pending < fuel →
      ∃ t, serialWait wait fuel s = some t ∧ t.Ready bound ∧ t.uart.waiting = [] ∧
        t.uart.onLine = s.uart.onLine := by
  induction fuel with
  | zero => exact fun _ hfuel => absurd hfuel (Nat.not_lt_zero _)
  | succ fuel ih =>
    intro s h hfuel
    have hnext : (s.elapse wait).Ready bound := h.elapse hbound
    have hline : (s.elapse wait).uart.onLine = s.uart.onLine := Uart.run_onLine h.loop _
    have hstatus : (s.elapse wait).uart.lineStatus &&& 0x20 ≠ 0 ↔
        (s.elapse wait).uart.waiting = [] := Uart.lineStatus_and_iff _
    rw [serialWait, serialCanTx, comInb]
    simp only [hstatus, decide_eq_true_eq]
    by_cases hempty : (s.elapse wait).uart.waiting = []
    · rw [if_pos hempty]
      exact ⟨_, rfl, hnext, hempty, hline⟩
    · rw [if_neg hempty]
      have hpending : (s.elapse wait).uart.pending ≤ s.uart.pending - wait s.accesses :=
        Uart.pending_run _ _
      have hpos : (s.elapse wait).uart.pending ≠ 0 := mt Uart.waiting_eq_nil_of_pending hempty
      have hcycle := hwait s.accesses
      obtain ⟨t, ht, hready, hwaiting, honline⟩ := ih hnext (by omega)
      exact ⟨t, ht, hready, hwaiting, honline.trans hline⟩

/-- **One byte.** The wait ends when the frame before it is over, and then the data port has room,
so nothing is lost. -/
theorem writeChar (h : s.Ready bound) (hwait : ∀ k, 0 < wait k) (hbound : 480 < bound) {fuel : ℕ}
    (hfuel : bound + 482 < fuel) (c : UInt8) :
    ∃ t, serialPortWriteChar wait fuel s c = some t ∧ t.Ready bound ∧
      t.uart.onLine = s.uart.onLine ++ [comFrame c] := by
  obtain ⟨r, hr, hready, hempty, honline⟩ := waits hwait hbound fuel h (h.pending.trans_lt hfuel)
  have hnext : (r.elapse wait).Ready bound := hready.elapse hbound
  have hline : (r.elapse wait).uart.onLine = r.uart.onLine := Uart.run_onLine hready.loop _
  have hroom : (r.elapse wait).uart.waiting = [] := by
    refine List.eq_nil_of_length_eq_zero (Nat.le_zero.mp ?_)
    refine (Uart.length_waiting_run _ _).trans (Nat.le_of_eq ?_)
    rw [hempty]
    rfl
  have hlatch : ¬(r.elapse wait).uart.Latch := hnext.latch
  have hfifo : (r.elapse wait).uart.fifoOn = true := by
    rw [hnext.settings]
    rfl
  have hwrite : (comOutb wait r com1Port c).uart =
      { (r.elapse wait).uart with waiting := [c] } := by
    have hsettings : (r.elapse wait).uart.toSettings.write 0 c =
        (r.elapse wait).uart.toSettings := if_neg hlatch
    have hwaiting : (r.elapse wait).uart.waitingAfter 0 c = [c] := by
      rw [Uart.waitingAfter, if_neg hlatch, if_pos hfifo, hroom]
      rfl
    show (r.elapse wait).uart.write 0 c = _
    rw [Uart.write, hsettings, hwaiting]
  refine ⟨comOutb wait r com1Port c, ?_, ?_, ?_⟩
  · rw [serialPortWriteChar, h.initialized, hr]
    rfl
  · refine ⟨hnext.initialized, ?_, ?_, ?_⟩
    · rw [hwrite]
      exact hnext.settings
    · rw [hwrite]
      exact hnext.left
    · rw [hwrite]
      exact Nat.le_refl 1
  · rw [hwrite, ← honline, ← hline, Uart.onLine, Uart.onLine, hroom, List.map_nil, List.append_nil,
      List.map_singleton]
    exact congrArg (fun f => _ ++ [f]) (hnext.frame c)

/-- **All bytes**, once and in order. -/
theorem writes (hwait : ∀ k, 0 < wait k) (hbound : 480 < bound) {fuel : ℕ}
    (hfuel : bound + 482 < fuel) (bytes : List UInt8) :
    ∀ {s : ComPort}, s.Ready bound →
      ∃ t, serialPortWrite wait fuel s bytes = some t ∧ t.Ready bound ∧
        t.uart.onLine = s.uart.onLine ++ bytes.map comFrame := by
  induction bytes with
  | nil => exact fun {s} h => ⟨s, rfl, h, (List.append_nil _).symm⟩
  | cons c bytes ih =>
    intro s h
    obtain ⟨r, hr, hready, hline⟩ := h.writeChar hwait hbound hfuel c
    obtain ⟨t, ht, hready', hline'⟩ := ih hready
    refine ⟨t, ?_, hready', ?_⟩
    · rw [serialPortWrite, hr]
      exact ht
    · rw [hline', hline, List.append_assoc]
      rfl

end ComPort.Ready

/-! ## What comes out -/

/-- **What the console sends comes out of the port**, each byte once and in order, whatever state
the port was in and however long its accesses take: no wait goes on for ever, nothing is lost for
want of room, and the bytes on the wire decode to the text of all calls. -/
theorem serialPort_sends (hwait : ∀ k, 0 < wait k) (s : ComPort) (c : Console)
    (calls : List Call) :
    let v := serialInit wait s
    let sent := (calls.foldl playCall (consoleInit c)).serial.drop (consoleInit c).serial.length
    let limit := max v.uart.left 481 + 482
    uncrlf sent = calls.flatMap Call.text ∧
      ∀ fuel > limit, ∃ t, serialPortWrite wait fuel v sent = some t ∧
        ∀ n ≥ limit, (t.uart.run n).wire = v.uart.onLine ++ sent.map comFrame := by
  intro v sent limit
  have hinit : (consoleInit c).serialInitialized = true := rfl
  refine ⟨(playCalls_sends calls hinit).decodes, fun fuel hfuel => ?_⟩
  obtain ⟨t, ht, hready, hline⟩ := ComPort.Ready.writes hwait
    (Nat.lt_of_lt_of_le (by decide) (Nat.le_max_right _ 481)) hfuel sent (serialInit_ready s)
  refine ⟨t, ht, fun n hn => ?_⟩
  rw [Uart.run_wire hready.loop (hready.pending.trans hn), hline]

/-- A port that was never used. -/
def coldPort : ComPort := ⟨⟨⟨0, 0, 0, 0, 0, false⟩, [], none, []⟩, 0, false⟩

theorem serialPort_sends_letter :
    ∃ t, serialPortWrite (fun _ => 1) 964 (serialInit (fun _ => 1) coldPort) [0x41] = some t ∧
      (t.uart.run 963).wire = [comFrame 0x41] := by
  have hwait : ∀ k : ℕ, 0 < (fun _ => 1 : ℕ → ℕ) k := fun _ => Nat.one_pos
  have hsends := (serialPort_sends hwait coldPort (idleConsole vgaText) [.consolePutc 0x41]).2
  have hsent : ([Call.consolePutc 0x41].foldl playCall
      (consoleInit (idleConsole vgaText))).serial.drop
        (consoleInit (idleConsole vgaText)).serial.length = [0x41] := by
    have hinit : (consoleInit (idleConsole vgaText)).serialInitialized = true := rfl
    rw [(playCalls_sends [.consolePutc 0x41] hinit).serial, List.drop_left]
    rfl
  have hleft : (serialInit (fun _ => 1) coldPort).uart.left = 0 := rfl
  have hline : (serialInit (fun _ => 1) coldPort).uart.onLine = [] := rfl
  simp only [hsent, hleft, hline] at hsends
  obtain ⟨t, ht, hwire⟩ := hsends 964 (by decide)
  exact ⟨t, ht, hwire 963 (by decide)⟩

end WaluOs
