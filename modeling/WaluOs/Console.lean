import Mathlib.Algebra.Group.Int.Defs
import WaluOs.Display

/-!
# The console

`Term` is what the console knows besides its display: the cursor, the colours
and the parsers of escape sequences and UTF-8. Nothing it decides depends on
what a cell holds.

`ansi_params` is the list of its first `ansi_param_count` entries; the entries
behind them are never read. `int` arithmetic is 32-bit two's complement.
-/

namespace WaluOs

open Loops

/-- `ANSI_MAX_PARAMS` -/
abbrev ansiMaxParams : ℕ := 8

/-- `enum ansi_state` -/
inductive AnsiState : Type where
  /-- `ANSI_GROUND` -/
  | ground : AnsiState
  /-- `ANSI_ESC` -/
  | esc : AnsiState
  /-- `ANSI_CSI` -/
  | csi : AnsiState
  deriving DecidableEq, Repr

/-- The console's static variables besides those of its display and the serial port: cursor,
colours, and the two decoders. It is the part that does not depend on where the cells are. -/
structure Term : Type where
  /-- `cursor_row` -/
  cursorRow : ℕ
  /-- `cursor_col` -/
  cursorCol : ℕ
  /-- `saved_cursor_row` -/
  savedCursorRow : ℕ
  /-- `saved_cursor_col` -/
  savedCursorCol : ℕ
  /-- `ansi_fg` -/
  ansiFg : UInt8
  /-- `ansi_bg` -/
  ansiBg : UInt8
  /-- `ansi_parser_state` -/
  ansiParserState : AnsiState
  /-- the first `ansi_param_count` entries of `ansi_params` -/
  ansiParams : List ℤ
  /-- `ansi_param_current` -/
  ansiParamCurrent : ℤ
  /-- `ansi_param_active` -/
  ansiParamActive : Bool
  /-- `utf8_codepoint` -/
  utf8Codepoint : UInt32
  /-- `utf8_needed` -/
  utf8Needed : UInt8
  /-- `utf8_total` -/
  utf8Total : UInt8
  deriving DecidableEq, Repr

/-- The console: a display, a terminal, and the serial port that gets a copy of each byte. -/
structure Console : Type extends Display, Term where
  /-- `serial_initialized` -/
  serialInitialized : Bool
  /-- the bytes sent to the serial port, oldest first -/
  serial : List UInt8

/-- `video_framebuffer_info_t`, without the positions of the colour channels, which nothing reads.
Its numbers come from the boot loader, and the console checks some of them. -/
structure VideoFramebufferInfo : Type where
  present : Bool
  mapped : Bool
  physAddr : UInt64
  sizeBytes : UInt64
  width : UInt32
  height : UInt32
  pitch : UInt32
  bpp : UInt8
  type : UInt8

/-- The value of an `int` computation. -/
def int32 (i : ℤ) : ℤ := i.bmod (2 ^ 32)

/-- The conversion of an `int` to `size_t`. -/
def toSizeT (i : ℤ) : ℕ := (i % 2 ^ 64).toNat

/-- Change the display only. -/
def Console.draw (c : Console) (f : Display → Display) : Console :=
  { c with toDisplay := f c.toDisplay }

/-- Change the terminal only: the display and the serial port stay as they are. -/
def Console.update (c : Console) (f : Term → Term) : Console := { c with toTerm := f c.toTerm }

/-- `serial_write_char`; the wait for the transmitter always ends. -/
def serialWriteChar (c : Console) (byte : UInt8) : Console :=
  if c.serialInitialized then { c with serial := c.serial ++ [byte] } else c

/-- `current_vga_color` -/
def currentVgaColor (t : Term) : UInt8 := (t.ansiBg <<< 4) ||| (t.ansiFg &&& 0x0F)

/-! ## Drawing at the cursor -/

/-- `scroll_if_needed` -/
def scrollIfNeeded (c : Console) : Console :=
  let color := currentVgaColor c.toTerm
  if c.cursorRow < c.termRows then
    c
  else
    (c.draw fun d => backendScrollUp d color).update fun t =>
      { t with cursorRow := c.termRows - 1 }

/-- `clear_line_range` -/
def clearLineRange (c : Console) (row colStart colEnd : ℕ) : Console :=
  let color := currentVgaColor c.toTerm
  if c.termRows ≤ row then
    c
  else
    let colStart := if c.termCols ≤ colStart then c.termCols - 1 else colStart
    let colEnd := if c.termCols ≤ colEnd then c.termCols - 1 else colEnd
    if colEnd < colStart then
      c
    else
      c.draw (forRange colStart (colEnd + 1) fun d x => backendPutCell d row x 0x20 color)

/-- The cursor movement of `raw_put_visible`. -/
def advanceCursor (c : Console) : Console :=
  let c := c.update fun t => { t with cursorCol := t.cursorCol + 1 }
  if c.termCols ≤ c.cursorCol then
    c.update fun t => { t with cursorCol := 0, cursorRow := t.cursorRow + 1 }
  else
    c

/-- `raw_put_visible` -/
def rawPutVisible (c : Console) (byte : UInt8) : Console :=
  let c := c.draw fun d =>
    backendPutCell (d.note (.rawPutVisible byte)) c.cursorRow c.cursorCol byte
      (currentVgaColor c.toTerm)
  scrollIfNeeded (advanceCursor c)

/-- `raw_newline` -/
def rawNewline (c : Console) : Console :=
  scrollIfNeeded (c.update fun t => { t with cursorCol := 0, cursorRow := t.cursorRow + 1 })

/-- The cursor movement of `console_backspace`. -/
def retreatCursor (c : Console) : Console :=
  if c.cursorCol = 0 then
    c.update fun t => { t with cursorRow := t.cursorRow - 1, cursorCol := c.termCols - 1 }
  else
    c.update fun t => { t with cursorCol := t.cursorCol - 1 }

/-- `console_backspace` -/
def consoleBackspace (c : Console) : Console :=
  if c.cursorCol = 0 ∧ c.cursorRow = 0 then
    c
  else
    let c := retreatCursor c
    c.draw fun d => backendPutCell d c.cursorRow c.cursorCol 0x20 (currentVgaColor c.toTerm)

/-! ## Colours and parameters -/

/-- `ansi_base_to_vga` -/
def ansiBaseToVga (index : UInt8) : UInt8 := [0, 4, 2, 6, 1, 5, 3, 7].getD index.toNat 0

/-- `ansi_color_to_vga` -/
def ansiColorToVga (ansiColor : UInt8) (bright : Bool) : UInt8 :=
  let vga := ansiBaseToVga (ansiColor &&& 0x7)
  if bright ∧ vga < 8 then vga + 8 else vga

/-- `ansi_sgr_apply` -/
def ansiSgrApply (t : Term) (code : ℤ) : Term :=
  if code = 0 then
    { t with ansiFg := 15, ansiBg := 0 }
  else if code = 1 then
    if t.ansiFg < 8 then { t with ansiFg := t.ansiFg + 8 } else t
  else if code = 22 then
    if 8 ≤ t.ansiFg then { t with ansiFg := t.ansiFg - 8 } else t
  else if 30 ≤ code ∧ code ≤ 37 then
    { t with ansiFg := ansiColorToVga (UInt8.ofNat (code - 30).toNat) false }
  else if 90 ≤ code ∧ code ≤ 97 then
    { t with ansiFg := ansiColorToVga (UInt8.ofNat (code - 90).toNat) true }
  else if code = 39 then
    { t with ansiFg := 15 }
  else if 40 ≤ code ∧ code ≤ 47 then
    { t with ansiBg := ansiColorToVga (UInt8.ofNat (code - 40).toNat) false }
  else if 100 ≤ code ∧ code ≤ 107 then
    { t with ansiBg := ansiColorToVga (UInt8.ofNat (code - 100).toNat) true }
  else if code = 49 then
    { t with ansiBg := 0 }
  else
    t

/-- `ansi_param_at` -/
def ansiParamAt (t : Term) (i : ℕ) (fallback : ℤ) : ℤ := t.ansiParams.getD i fallback

/-- `ansi_reset_params` -/
def ansiResetParams (t : Term) : Term :=
  { t with ansiParams := [], ansiParamCurrent := 0, ansiParamActive := false }

/-- `ansi_push_current_param` -/
def ansiPushCurrentParam (t : Term) : Term :=
  if !t.ansiParamActive ∧ t.ansiParams.length = 0 then
    t
  else
    let t :=
      if t.ansiParams.length < ansiMaxParams then
        { t with ansiParams :=
            t.ansiParams ++ [if t.ansiParamActive then t.ansiParamCurrent else 0] }
      else
        t
    { t with ansiParamCurrent := 0, ansiParamActive := false }

/-! ## Control sequences -/

/-- `console_clear` -/
def consoleClear (c : Console) : Console :=
  let c := c.update fun t => { t with ansiFg := 15, ansiBg := 0, ansiParserState := .ground }
  let c := c.update ansiResetParams
  let c := c.update fun t => { t with utf8Codepoint := 0, utf8Needed := 0, utf8Total := 0 }
  let color := currentVgaColor c.toTerm
  let c := c.draw fun d => backendClearAll d color
  c.update fun t =>
    { t with cursorRow := 0, cursorCol := 0, savedCursorRow := 0, savedCursorCol := 0 }

/-- The `'H'` and `'f'` branch of `ansi_execute_csi`. -/
def ansiCursorPosition (c : Console) : Console :=
  let row := toSizeT (int32 (ansiParamAt c.toTerm 0 1 - 1))
  let col := toSizeT (int32 (ansiParamAt c.toTerm 1 1 - 1))
  let row := if c.termRows ≤ row then c.termRows - 1 else row
  let col := if c.termCols ≤ col then c.termCols - 1 else col
  c.update fun t => { t with cursorRow := row, cursorCol := col }

/-- The `'J'` branch of `ansi_execute_csi`. -/
def ansiEraseDisplay (c : Console) : Console :=
  let mode := ansiParamAt c.toTerm 0 0
  if mode = 2 then
    consoleClear c
  else if mode = 0 then
    let c := clearLineRange c c.cursorRow c.cursorCol (c.termCols - 1)
    forRange (c.cursorRow + 1) c.termRows
      (fun c y => clearLineRange c y 0 (c.termCols - 1)) c
  else if mode = 1 then
    let c := forRange 0 c.cursorRow (fun c y => clearLineRange c y 0 (c.termCols - 1)) c
    clearLineRange c c.cursorRow 0 c.cursorCol
  else
    c

/-- The `'K'` branch of `ansi_execute_csi`. -/
def ansiEraseLine (c : Console) : Console :=
  let mode := ansiParamAt c.toTerm 0 0
  if mode = 0 then
    clearLineRange c c.cursorRow c.cursorCol (c.termCols - 1)
  else if mode = 1 then
    clearLineRange c c.cursorRow 0 c.cursorCol
  else if mode = 2 then
    clearLineRange c c.cursorRow 0 (c.termCols - 1)
  else
    c

/-- The `'s'` branch of `ansi_execute_csi`. -/
def ansiSaveCursor (c : Console) : Console :=
  c.update fun t => { t with savedCursorRow := t.cursorRow, savedCursorCol := t.cursorCol }

/-- The `'u'` branch of `ansi_execute_csi`. -/
def ansiRestoreCursor (c : Console) : Console :=
  let row := if c.termRows ≤ c.savedCursorRow then c.termRows - 1 else c.savedCursorRow
  let col := if c.termCols ≤ c.savedCursorCol then c.termCols - 1 else c.savedCursorCol
  c.update fun t => { t with cursorRow := row, cursorCol := col }

/-- `ansi_execute_csi` -/
def ansiExecuteCsi (c : Console) (final : UInt8) : Console :=
  if final = 0x6D then
    if c.ansiParams = [] then
      c.update fun t => ansiSgrApply t 0
    else
      c.update fun t => t.ansiParams.foldl ansiSgrApply t
  else if final = 0x48 ∨ final = 0x66 then
    ansiCursorPosition c
  else
    let n := ansiParamAt c.toTerm 0 1
    let n := toSizeT (if n < 1 then 1 else n)
    if final = 0x41 then
      c.update fun t => { t with cursorRow := if n < t.cursorRow then t.cursorRow - n else 0 }
    else if final = 0x42 then
      let row := c.cursorRow + n
      let row := if c.termRows ≤ row then c.termRows - 1 else row
      c.update fun t => { t with cursorRow := row }
    else if final = 0x43 then
      let col := c.cursorCol + n
      let col := if c.termCols ≤ col then c.termCols - 1 else col
      c.update fun t => { t with cursorCol := col }
    else if final = 0x44 then
      c.update fun t => { t with cursorCol := if n < t.cursorCol then t.cursorCol - n else 0 }
    else if final = 0x4A then
      ansiEraseDisplay c
    else if final = 0x4B then
      ansiEraseLine c
    else if final = 0x73 then
      ansiSaveCursor c
    else if final = 0x75 then
      ansiRestoreCursor c
    else
      c

/-! ## UTF-8 -/

/-- `console_emit_codepoint` -/
def consoleEmitCodepoint (c : Console) (codepoint : UInt32) : Console :=
  let c := c.draw fun d => d.note (.emitCodepoint codepoint)
  if codepoint = 0 then
    c
  else if codepoint ≤ 0x7F then
    rawPutVisible c codepoint.toUInt8
  else
    rawPutVisible c 0x3F

/-- The `valid` of `console_emit_utf8_byte`. -/
def utf8Valid (total : UInt8) (cp : UInt32) : Bool :=
  !(total = 1 ∧ cp < 0x80) ∧ !(total = 2 ∧ cp < 0x800) ∧ !(total = 3 ∧ cp < 0x10000) ∧
    !(0x10FFFF < cp ∨ (0xD800 ≤ cp ∧ cp ≤ 0xDFFF))

/-- `console_emit_utf8_byte` -/
def consoleEmitUtf8Byte (c : Console) (byte : UInt8) : Console :=
  if c.utf8Needed = 0 then
    if byte &&& 0xE0 = 0xC0 then
      c.update fun t =>
        { t with utf8Codepoint := (byte &&& 0x1F).toUInt32, utf8Needed := 1, utf8Total := 1 }
    else if byte &&& 0xF0 = 0xE0 then
      c.update fun t =>
        { t with utf8Codepoint := (byte &&& 0x0F).toUInt32, utf8Needed := 2, utf8Total := 2 }
    else if byte &&& 0xF8 = 0xF0 then
      c.update fun t =>
        { t with utf8Codepoint := (byte &&& 0x07).toUInt32, utf8Needed := 3, utf8Total := 3 }
    else
      consoleEmitCodepoint c 0x3F
  else if byte &&& 0xC0 ≠ 0x80 then
    consoleEmitCodepoint
      (c.update fun t => { t with utf8Needed := 0, utf8Total := 0, utf8Codepoint := 0 }) 0x3F
  else
    let c := c.update fun t =>
      { t with
        utf8Codepoint := (t.utf8Codepoint <<< 6) ||| (byte &&& 0x3F).toUInt32
        utf8Needed := t.utf8Needed - 1 }
    if c.utf8Needed = 0 then
      let cp := c.utf8Codepoint
      let c :=
        if utf8Valid c.utf8Total cp then consoleEmitCodepoint c cp
        else consoleEmitCodepoint c 0x3F
      c.update fun t => { t with utf8Total := 0, utf8Codepoint := 0 }
    else
      c

/-! ## The interface -/

/-- `console_handle_ground_byte` -/
def consoleHandleGroundByte (c : Console) (byte : UInt8) : Console :=
  if byte = 0x1B then
    c.update fun t => { t with ansiParserState := .esc }
  else if byte = 0x0A then
    rawNewline c
  else if byte = 0x0D then
    c.update fun t => { t with cursorCol := 0 }
  else if byte = 0x08 then
    consoleBackspace c
  else if byte = 0x09 then
    let spaces := 4 - c.cursorCol % 4
    forRange 0 spaces (fun c _ => rawPutVisible c 0x20) c
  else if byte < 0x20 then
    c
  else if byte < 0x80 then
    rawPutVisible c byte
  else
    consoleEmitUtf8Byte c byte

/-- The `ANSI_CSI` branch of `console_putc`. -/
def consoleHandleCsiByte (c : Console) (byte : UInt8) : Console :=
  if 0x30 ≤ byte ∧ byte ≤ 0x39 then
    c.update fun t =>
      { t with
        ansiParamCurrent := int32 (t.ansiParamCurrent * 10 + (byte - 0x30).toNat)
        ansiParamActive := true }
  else if byte = 0x3B then
    c.update ansiPushCurrentParam
  else if 0x40 ≤ byte ∧ byte ≤ 0x7E then
    let c := ansiExecuteCsi (c.update ansiPushCurrentParam) byte
    c.update fun t => ansiResetParams { t with ansiParserState := .ground }
  else
    c.update fun t => { t with ansiParserState := .ground }

/-- `console_putc` -/
def consolePutc (c : Console) (byte : UInt8) : Console :=
  let c := if byte = 0x0A then serialWriteChar c 0x0D else c
  let c := serialWriteChar c byte
  match c.ansiParserState with
  | .ground => consoleHandleGroundByte c byte
  | .esc =>
    if byte = 0x5B then
      c.update fun t => ansiResetParams { t with ansiParserState := .csi }
    else
      consoleHandleGroundByte (c.update fun t => { t with ansiParserState := .ground }) byte
  | .csi => consoleHandleCsiByte c byte

/-- `console_init`; the port writes of `serial_init` only set up the port, and have a model of
their own. -/
def consoleInit (c : Console) : Console :=
  consoleClear
    { c with
      serialInitialized := true
      backend := .vga
      termCols := vgaWidth
      termRows := vgaHeight }

/-- `console_enable_framebuffer` -/
def consoleEnableFramebuffer (c : Console) (fb : VideoFramebufferInfo) : Console × Bool :=
  if !fb.present ∨ !fb.mapped ∨ fb.type ≠ 1 ∨ fb.bpp ≠ 32 ∨ fb.width.toNat < glyphWidth ∨
      fb.height.toNat < glyphHeight ∨ fb.pitch < 4 ∨ fb.pitch % 4 ≠ 0 then
    (c, false)
  else
    let cols := fb.width.toNat / glyphWidth
    let rows := fb.height.toNat / glyphHeight
    let cols := if fbMaxCols < cols then fbMaxCols else cols
    let rows := if fbMaxRows < rows then fbMaxRows else rows
    let c := { c with
      fbMemory := fb.physAddr.toNat
      fbWidth := fb.width.toNat
      fbHeight := fb.height.toNat
      fbPitchPixels := fb.pitch.toNat / 4
      termCols := cols
      termRows := rows }
    if cols = 0 ∨ rows = 0 then
      (c, false)
    else
      (consoleClear { c with backend := .fb }, true)

end WaluOs
