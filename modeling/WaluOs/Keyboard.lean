import Mathlib.Data.Nat.Bitwise
import WaluOs.SlotRing

/-!
# The keyboard driver

Scan code set 1 in, key events and UTF-8 bytes out. Each interrupt hands one
scancode to `keyboardOnIrq`, which may push one event and several bytes.

The two queues are the same ring with the same full-queue branch, so
`kbdPushByte` and `kbdPushEvent` are one definition at two sizes. A
`KbdQueue` also carries two history fields, `accepted` and `refused`: what
the pushes stored and how many they dropped. The driver never reads them; they
are there so that statements about runs can speak of past pushes.

`unsigned int` indices and code points are naturals, `uint64_t` counters are
`UInt64`.
-/

namespace WaluOs

universe u

/-- `KBD_BYTE_QUEUE_SIZE` -/
abbrev kbdByteQueueSize : ℕ := 1024

/-- `KBD_EVENT_QUEUE_SIZE` -/
abbrev kbdEventQueueSize : ℕ := 256

/-! ## Keys -/

/-- `keycode_t`, without the count `KEY_MAX`, which no scancode maps to. -/
inductive KeyCode : Type where
  | keyNone | keyEsc | key1 | key2 | key3 | key4 | key5 | key6 | key7 | key8 | key9 | key0
  | keyMinus | keyEqual | keyBackspace | keyTab | keyQ | keyW | keyE | keyR | keyT | keyY
  | keyU | keyI | keyO | keyP | keyLeftbrace | keyRightbrace | keyEnter | keyLeftctrl | keyA
  | keyS | keyD | keyF | keyG | keyH | keyJ | keyK | keyL | keySemicolon | keyApostrophe
  | keyGrave | keyLeftshift | keyBackslash | keyZ | keyX | keyC | keyV | keyB | keyN | keyM
  | keyComma | keyDot | keySlash | keyRightshift | keyKpasterisk | keyLeftalt | keySpace
  | keyCapslock | keyF1 | keyF2 | keyF3 | keyF4 | keyF5 | keyF6 | keyF7 | keyF8 | keyF9
  | keyF10 | keyNumlock | keyScrolllock | keyKp7 | keyKp8 | keyKp9 | keyKpminus | keyKp4
  | keyKp5 | keyKp6 | keyKpplus | keyKp1 | keyKp2 | keyKp3 | keyKp0 | keyKpdot | keyF11
  | keyF12 | keyRightctrl | keyRightalt | keyHome | keyUp | keyPageup | keyLeft | keyRight
  | keyEnd | keyDown | keyPagedown | keyInsert | keyDelete | keyLeftmeta | keyRightmeta
  | keyKpenter | keyKpslash
  deriving DecidableEq, Repr

/-- `scancode_to_key`, by its designated initialisers. -/
def scancodeToKeyTable : List (UInt8 × KeyCode) :=
  [(0x01, .keyEsc), (0x02, .key1), (0x03, .key2), (0x04, .key3), (0x05, .key4), (0x06, .key5),
   (0x07, .key6), (0x08, .key7), (0x09, .key8), (0x0A, .key9), (0x0B, .key0), (0x0C, .keyMinus),
   (0x0D, .keyEqual), (0x0E, .keyBackspace), (0x0F, .keyTab), (0x10, .keyQ), (0x11, .keyW),
   (0x12, .keyE), (0x13, .keyR), (0x14, .keyT), (0x15, .keyY), (0x16, .keyU), (0x17, .keyI),
   (0x18, .keyO), (0x19, .keyP), (0x1A, .keyLeftbrace), (0x1B, .keyRightbrace),
   (0x1C, .keyEnter), (0x1D, .keyLeftctrl), (0x1E, .keyA), (0x1F, .keyS), (0x20, .keyD),
   (0x21, .keyF), (0x22, .keyG), (0x23, .keyH), (0x24, .keyJ), (0x25, .keyK), (0x26, .keyL),
   (0x27, .keySemicolon), (0x28, .keyApostrophe), (0x29, .keyGrave), (0x2A, .keyLeftshift),
   (0x2B, .keyBackslash), (0x2C, .keyZ), (0x2D, .keyX), (0x2E, .keyC), (0x2F, .keyV),
   (0x30, .keyB), (0x31, .keyN), (0x32, .keyM), (0x33, .keyComma), (0x34, .keyDot),
   (0x35, .keySlash), (0x36, .keyRightshift), (0x37, .keyKpasterisk), (0x38, .keyLeftalt),
   (0x39, .keySpace), (0x3A, .keyCapslock), (0x3B, .keyF1), (0x3C, .keyF2), (0x3D, .keyF3),
   (0x3E, .keyF4), (0x3F, .keyF5), (0x40, .keyF6), (0x41, .keyF7), (0x42, .keyF8),
   (0x43, .keyF9), (0x44, .keyF10), (0x45, .keyNumlock), (0x46, .keyScrolllock), (0x47, .keyKp7),
   (0x48, .keyKp8), (0x49, .keyKp9), (0x4A, .keyKpminus), (0x4B, .keyKp4), (0x4C, .keyKp5),
   (0x4D, .keyKp6), (0x4E, .keyKpplus), (0x4F, .keyKp1), (0x50, .keyKp2), (0x51, .keyKp3),
   (0x52, .keyKp0), (0x53, .keyKpdot), (0x57, .keyF11), (0x58, .keyF12)]

/-- `scancode_to_key_e0`, by its designated initialisers. -/
def scancodeToKeyE0Table : List (UInt8 × KeyCode) :=
  [(0x1C, .keyKpenter), (0x1D, .keyRightctrl), (0x35, .keyKpslash), (0x38, .keyRightalt),
   (0x47, .keyHome), (0x48, .keyUp), (0x49, .keyPageup), (0x4B, .keyLeft), (0x4D, .keyRight),
   (0x4F, .keyEnd), (0x50, .keyDown), (0x51, .keyPagedown), (0x52, .keyInsert),
   (0x53, .keyDelete), (0x5B, .keyLeftmeta), (0x5C, .keyRightmeta)]

/-- `scancode_to_key[code]`; an entry without initialiser is `KEY_NONE`. -/
def scancodeToKey (code : UInt8) : KeyCode := (scancodeToKeyTable.lookup code).getD .keyNone

/-- `scancode_to_key_e0[code]` -/
def scancodeToKeyE0 (code : UInt8) : KeyCode := (scancodeToKeyE0Table.lookup code).getD .keyNone

/-- `KBD_MOD_SHIFT` -/
abbrev kbdModShift : UInt8 := 1
/-- `KBD_MOD_CTRL` -/
abbrev kbdModCtrl : UInt8 := 2
/-- `KBD_MOD_ALT` -/
abbrev kbdModAlt : UInt8 := 4
/-- `KBD_MOD_ALTGR` -/
abbrev kbdModAltgr : UInt8 := 8
/-- `KBD_MOD_META` -/
abbrev kbdModMeta : UInt8 := 16
/-- `KBD_LOCK_CAPS` -/
abbrev kbdLockCaps : UInt8 := 1
/-- `KBD_LOCK_NUM` -/
abbrev kbdLockNum : UInt8 := 2
/-- `KBD_LOCK_SCROLL` -/
abbrev kbdLockScroll : UInt8 := 4

/-- `key_event_t`. It is made after the state has been updated, so the bits are those with the key
and not those before it. -/
structure KeyEvent : Type where
  /-- the key -/
  keycode : KeyCode
  /-- the character of a pressed key, or 0 -/
  unicode : ℕ
  /-- modifier bits after the key -/
  modifiers : UInt8
  /-- lock bits after the key -/
  locks : UInt8
  /-- make or break -/
  pressed : Bool
  /-- `repeat`: a make code of a key that was already down -/
  isRepeat : Bool
  deriving DecidableEq, Repr

/-! ## Queues -/

/-- One of the driver's queues: its array and indices, its drop counter, and
the history of its pushes. -/
structure KbdQueue (α : Type u) : Type u where
  /-- array, head and tail -/
  ring : SlotRing α
  /-- `kbd_drop_byte_count` or `kbd_drop_event_count` -/
  dropCount : UInt64
  /-- history: the elements pushes stored, oldest first -/
  accepted : List α
  /-- history: how many pushes found the queue full -/
  refused : ℕ

/-- The body shared by `kbd_push_byte` and `kbd_push_event`. -/
def kbdPush {α : Type u} (n : ℕ) (q : KbdQueue α) (x : α) : KbdQueue α :=
  let next := (q.ring.head + 1) % n
  if next = q.ring.tail then
    { q with dropCount := q.dropCount + 1, refused := q.refused + 1 }
  else
    { q with
      ring := { q.ring with slots := Function.update q.ring.slots q.ring.head x, head := next }
      accepted := q.accepted ++ [x] }

/-- The driver's static variables. The interrupt handler writes all of them; the consumers only
move the tails of the two queues. -/
structure Kbd : Type where
  /-- `kbd_byte_queue` with its indices and drop counter -/
  kbdByteQueue : KbdQueue UInt8
  /-- `kbd_event_queue` with its indices and drop counter -/
  kbdEventQueue : KbdQueue KeyEvent
  /-- `kbd_extended`: an `0xE0` prefix is pending -/
  kbdExtended : Bool
  /-- `kbd_e1_skip`: bytes of a Pause sequence still to skip -/
  kbdE1Skip : ℕ
  /-- `kbd_modifiers` -/
  kbdModifiers : UInt8
  /-- `kbd_locks` -/
  kbdLocks : UInt8
  /-- `kbd_key_down` -/
  kbdKeyDown : KeyCode → Bool
  /-- `kbd_rx_scancode_count` -/
  kbdRxScancodeCount : UInt64

/-- `kbd_push_byte` -/
def kbdPushByte (k : Kbd) (byte : UInt8) : Kbd :=
  { k with kbdByteQueue := kbdPush kbdByteQueueSize k.kbdByteQueue byte }

/-- `kbd_push_event` -/
def kbdPushEvent (k : Kbd) (event : KeyEvent) : Kbd :=
  { k with kbdEventQueue := kbdPush kbdEventQueueSize k.kbdEventQueue event }

/-- `kbd_emit_utf8` -/
def kbdEmitUtf8 (k : Kbd) (codepoint : ℕ) : Kbd :=
  if codepoint ≤ 0x7F then
    kbdPushByte k (UInt8.ofNat codepoint)
  else if codepoint ≤ 0x7FF then
    let k := kbdPushByte k (UInt8.ofNat (0xC0 ||| codepoint >>> 6))
    kbdPushByte k (UInt8.ofNat (0x80 ||| codepoint &&& 0x3F))
  else if codepoint ≤ 0xFFFF then
    if 0xD800 ≤ codepoint ∧ codepoint ≤ 0xDFFF then
      k
    else
      let k := kbdPushByte k (UInt8.ofNat (0xE0 ||| codepoint >>> 12))
      let k := kbdPushByte k (UInt8.ofNat (0x80 ||| codepoint >>> 6 &&& 0x3F))
      kbdPushByte k (UInt8.ofNat (0x80 ||| codepoint &&& 0x3F))
  else if codepoint ≤ 0x10FFFF then
    let k := kbdPushByte k (UInt8.ofNat (0xF0 ||| codepoint >>> 18))
    let k := kbdPushByte k (UInt8.ofNat (0x80 ||| codepoint >>> 12 &&& 0x3F))
    let k := kbdPushByte k (UInt8.ofNat (0x80 ||| codepoint >>> 6 &&& 0x3F))
    kbdPushByte k (UInt8.ofNat (0x80 ||| codepoint &&& 0x3F))
  else
    k

/-- `kbd_emit_sequence` -/
def kbdEmitSequence (k : Kbd) (seq : List UInt8) : Kbd := seq.foldl kbdPushByte k

/-! ## Modifiers, locks and characters -/

/-- `kbd_set_modifier_bit` -/
def kbdSetModifierBit (k : Kbd) (bit : UInt8) (pressed : Bool) : Kbd :=
  if pressed then
    { k with kbdModifiers := k.kbdModifiers ||| bit }
  else
    { k with kbdModifiers := k.kbdModifiers &&& ~~~bit }

/-- `kbd_update_state` -/
def kbdUpdateState (k : Kbd) (keycode : KeyCode) (pressed : Bool) : Kbd :=
  match keycode with
  | .keyLeftshift | .keyRightshift => kbdSetModifierBit k kbdModShift pressed
  | .keyLeftctrl | .keyRightctrl => kbdSetModifierBit k kbdModCtrl pressed
  | .keyLeftalt => kbdSetModifierBit k kbdModAlt pressed
  | .keyRightalt => kbdSetModifierBit k kbdModAltgr pressed
  | .keyLeftmeta | .keyRightmeta => kbdSetModifierBit k kbdModMeta pressed
  | .keyCapslock =>
    if pressed then { k with kbdLocks := k.kbdLocks ^^^ kbdLockCaps } else k
  | .keyNumlock =>
    if pressed then { k with kbdLocks := k.kbdLocks ^^^ kbdLockNum } else k
  | .keyScrolllock =>
    if pressed then { k with kbdLocks := k.kbdLocks ^^^ kbdLockScroll } else k
  | _ => k

/-- `kbd_apply_alpha` -/
def kbdApplyAlpha (lower : ℕ) (modifiers locks : UInt8) : ℕ :=
  let shift := modifiers &&& kbdModShift != 0
  let caps := locks &&& kbdLockCaps != 0
  let ch := if shift ^^ caps then lower - ('a'.toNat - 'A'.toNat) else lower
  if modifiers &&& kbdModCtrl != 0 then ch &&& 0x1F else ch

/-- `kbd_keycode_to_unicode` -/
def kbdKeycodeToUnicode (keycode : KeyCode) (modifiers locks : UInt8) : ℕ :=
  let shift := modifiers &&& kbdModShift != 0
  let ctrl := modifiers &&& kbdModCtrl != 0
  let numlock := locks &&& kbdLockNum != 0
  match keycode with
  | .keyA => kbdApplyAlpha 'a'.toNat modifiers locks
  | .keyB => kbdApplyAlpha 'b'.toNat modifiers locks
  | .keyC => kbdApplyAlpha 'c'.toNat modifiers locks
  | .keyD => kbdApplyAlpha 'd'.toNat modifiers locks
  | .keyE => kbdApplyAlpha 'e'.toNat modifiers locks
  | .keyF => kbdApplyAlpha 'f'.toNat modifiers locks
  | .keyG => kbdApplyAlpha 'g'.toNat modifiers locks
  | .keyH => kbdApplyAlpha 'h'.toNat modifiers locks
  | .keyI => kbdApplyAlpha 'i'.toNat modifiers locks
  | .keyJ => kbdApplyAlpha 'j'.toNat modifiers locks
  | .keyK => kbdApplyAlpha 'k'.toNat modifiers locks
  | .keyL => kbdApplyAlpha 'l'.toNat modifiers locks
  | .keyM => kbdApplyAlpha 'm'.toNat modifiers locks
  | .keyN => kbdApplyAlpha 'n'.toNat modifiers locks
  | .keyO => kbdApplyAlpha 'o'.toNat modifiers locks
  | .keyP => kbdApplyAlpha 'p'.toNat modifiers locks
  | .keyQ => kbdApplyAlpha 'q'.toNat modifiers locks
  | .keyR => kbdApplyAlpha 'r'.toNat modifiers locks
  | .keyS => kbdApplyAlpha 's'.toNat modifiers locks
  | .keyT => kbdApplyAlpha 't'.toNat modifiers locks
  | .keyU => kbdApplyAlpha 'u'.toNat modifiers locks
  | .keyV => kbdApplyAlpha 'v'.toNat modifiers locks
  | .keyW => kbdApplyAlpha 'w'.toNat modifiers locks
  | .keyX => kbdApplyAlpha 'x'.toNat modifiers locks
  | .keyY => kbdApplyAlpha 'y'.toNat modifiers locks
  | .keyZ => kbdApplyAlpha 'z'.toNat modifiers locks
  | .key1 => if shift then '!'.toNat else '1'.toNat
  | .key2 => if ctrl then 0 else if shift then '@'.toNat else '2'.toNat
  | .key3 => if shift then '#'.toNat else '3'.toNat
  | .key4 => if shift then '$'.toNat else '4'.toNat
  | .key5 => if shift then '%'.toNat else '5'.toNat
  | .key6 => if ctrl then 0x1E else if shift then '^'.toNat else '6'.toNat
  | .key7 => if shift then '&'.toNat else '7'.toNat
  | .key8 => if shift then '*'.toNat else '8'.toNat
  | .key9 => if shift then '('.toNat else '9'.toNat
  | .key0 => if shift then ')'.toNat else '0'.toNat
  | .keyMinus => if ctrl then 0x1F else if shift then '_'.toNat else '-'.toNat
  | .keyEqual => if shift then '+'.toNat else '='.toNat
  | .keyLeftbrace => if ctrl then 0x1B else if shift then 0x7B else '['.toNat
  | .keyRightbrace => if ctrl then 0x1D else if shift then 0x7D else ']'.toNat
  | .keyBackslash => if ctrl then 0x1C else if shift then '|'.toNat else 0x5C
  | .keySemicolon => if shift then ':'.toNat else ';'.toNat
  | .keyApostrophe => if shift then 0x22 else 0x27
  | .keyGrave => if shift then '~'.toNat else 0x60
  | .keyComma => if shift then '<'.toNat else ','.toNat
  | .keyDot => if shift then '>'.toNat else '.'.toNat
  | .keySlash => if shift then '?'.toNat else '/'.toNat
  | .keySpace => ' '.toNat
  | .keyTab => 0x09
  | .keyEnter | .keyKpenter => 0x0A
  | .keyBackspace => 0x08
  | .keyEsc => 0x1B
  | .keyKp0 => if numlock then '0'.toNat else 0
  | .keyKp1 => if numlock then '1'.toNat else 0
  | .keyKp2 => if numlock then '2'.toNat else 0
  | .keyKp3 => if numlock then '3'.toNat else 0
  | .keyKp4 => if numlock then '4'.toNat else 0
  | .keyKp5 => if numlock then '5'.toNat else 0
  | .keyKp6 => if numlock then '6'.toNat else 0
  | .keyKp7 => if numlock then '7'.toNat else 0
  | .keyKp8 => if numlock then '8'.toNat else 0
  | .keyKp9 => if numlock then '9'.toNat else 0
  | .keyKpdot => if numlock then '.'.toNat else 0
  | .keyKpminus => '-'.toNat
  | .keyKpplus => '+'.toNat
  | .keyKpasterisk => '*'.toNat
  | .keyKpslash => '/'.toNat
  | _ => 0

/-- The string `kbd_emit_special_sequence` emits for a key, empty where its switch has no case.
Letters and digits have none: their bytes are the character of the key. -/
def kbdSpecialSequence : KeyCode → List UInt8
  | .keyUp => [0x1B, 0x5B, 0x41]
  | .keyDown => [0x1B, 0x5B, 0x42]
  | .keyRight => [0x1B, 0x5B, 0x43]
  | .keyLeft => [0x1B, 0x5B, 0x44]
  | .keyHome => [0x1B, 0x5B, 0x48]
  | .keyEnd => [0x1B, 0x5B, 0x46]
  | .keyInsert => [0x1B, 0x5B, 0x32, 0x7E]
  | .keyDelete => [0x1B, 0x5B, 0x33, 0x7E]
  | .keyPageup => [0x1B, 0x5B, 0x35, 0x7E]
  | .keyPagedown => [0x1B, 0x5B, 0x36, 0x7E]
  | .keyF1 => [0x1B, 0x4F, 0x50]
  | .keyF2 => [0x1B, 0x4F, 0x51]
  | .keyF3 => [0x1B, 0x4F, 0x52]
  | .keyF4 => [0x1B, 0x4F, 0x53]
  | .keyF5 => [0x1B, 0x5B, 0x31, 0x35, 0x7E]
  | .keyF6 => [0x1B, 0x5B, 0x31, 0x37, 0x7E]
  | .keyF7 => [0x1B, 0x5B, 0x31, 0x38, 0x7E]
  | .keyF8 => [0x1B, 0x5B, 0x31, 0x39, 0x7E]
  | .keyF9 => [0x1B, 0x5B, 0x32, 0x30, 0x7E]
  | .keyF10 => [0x1B, 0x5B, 0x32, 0x31, 0x7E]
  | .keyF11 => [0x1B, 0x5B, 0x32, 0x33, 0x7E]
  | .keyF12 => [0x1B, 0x5B, 0x32, 0x34, 0x7E]
  | _ => []

/-- `kbd_emit_special_sequence` -/
def kbdEmitSpecialSequence (k : Kbd) (keycode : KeyCode) : Kbd :=
  kbdEmitSequence k (kbdSpecialSequence keycode)

/-- `kbd_emit_input_bytes` -/
def kbdEmitInputBytes (k : Kbd) (event : KeyEvent) : Kbd :=
  if event.pressed = false then
    k
  else if event.unicode ≠ 0 then
    let k := if event.modifiers &&& (kbdModAlt ||| kbdModAltgr) ≠ 0 then kbdPushByte k 0x1B else k
    kbdEmitUtf8 k event.unicode
  else
    kbdEmitSpecialSequence k event.keycode

/-! ## The interrupt handler -/

/-- `keyboard_init`; the queue arrays keep their contents, and the history
starts over with the empty queues. -/
def keyboardInit (k : Kbd) : Kbd :=
  { kbdByteQueue := ⟨{ k.kbdByteQueue.ring with head := 0, tail := 0 }, 0, [], 0⟩
    kbdEventQueue := ⟨{ k.kbdEventQueue.ring with head := 0, tail := 0 }, 0, [], 0⟩
    kbdExtended := false
    kbdE1Skip := 0
    kbdModifiers := 0
    kbdLocks := 0
    kbdKeyDown := fun _ => false
    kbdRxScancodeCount := 0 }

/-- The part of `keyboard_on_irq` after a key has been looked up: key map,
modifiers, then the event and its bytes. -/
def kbdHandleKey (k : Kbd) (keycode : KeyCode) (released : Bool) : Kbd :=
  let isRepeat := if released then false else k.kbdKeyDown keycode
  let k := { k with kbdKeyDown := Function.update k.kbdKeyDown keycode (!released) }
  let k := kbdUpdateState k keycode (!released)
  let event : KeyEvent :=
    { keycode := keycode
      unicode := if released then 0 else kbdKeycodeToUnicode keycode k.kbdModifiers k.kbdLocks
      modifiers := k.kbdModifiers
      locks := k.kbdLocks
      pressed := !released
      isRepeat := isRepeat }
  kbdEmitInputBytes (kbdPushEvent k event) event

/-- `keyboard_on_irq`, with the byte read from the data port as its argument. Prefix bytes are
tested before anything else, so that a prefix may also come in the middle of a sequence that is
being skipped. -/
def keyboardOnIrq (k : Kbd) (scancode : UInt8) : Kbd :=
  let k := { k with kbdRxScancodeCount := k.kbdRxScancodeCount + 1 }
  if scancode = 0xE0 then
    { k with kbdExtended := true }
  else if scancode = 0xE1 then
    { k with kbdE1Skip := 5 }
  else if k.kbdE1Skip > 0 then
    { k with kbdE1Skip := k.kbdE1Skip - 1 }
  else
    let released := scancode &&& 0x80 != 0
    let code := scancode &&& 0x7F
    let keycode := if k.kbdExtended then scancodeToKeyE0 code else scancodeToKey code
    let k := if k.kbdExtended then { k with kbdExtended := false } else k
    if keycode = .keyNone then k else kbdHandleKey k keycode released

/-! ## The consumer's calls -/

/-- `keyboard_pop_char` -/
def keyboardPopChar (k : Kbd) : Kbd × Option UInt8 :=
  let r := k.kbdByteQueue.ring
  if r.tail = r.head then
    (k, none)
  else
    ({ k with kbdByteQueue := { k.kbdByteQueue with
        ring := { r with tail := (r.tail + 1) % kbdByteQueueSize } } }, some (r.slots r.tail))

/-- `keyboard_pop_event` -/
def keyboardPopEvent (k : Kbd) : Kbd × Option KeyEvent :=
  let r := k.kbdEventQueue.ring
  if r.tail = r.head then
    (k, none)
  else
    ({ k with kbdEventQueue := { k.kbdEventQueue with
        ring := { r with tail := (r.tail + 1) % kbdEventQueueSize } } }, some (r.slots r.tail))

end WaluOs
