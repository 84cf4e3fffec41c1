import WaluOs.Blind
import WaluOs.ControlSequences

/-!
# Escape sequences that are interrupted

An escape sequence may be left unfinished, and ESC begins another one. Behind ESC alone the
console takes it so, and inside a control sequence it does not: there the ESC is one of the
bytes that end the sequence, and what follows is text.

That the two runs agree where they do rests on what drawing does not look at: the serial port,
and the parameters of a sequence (`Hidden`).
-/

namespace WaluOs

open Loops Blindness Scrollback

/-! ## What drawing does not look at -/

/-- The serial port and the parameters: what two consoles may differ in that show the same and
will go on to show the same. -/
structure Hidden : Type where
  serialInitialized : Bool
  serial : List UInt8
  ansiParams : List ℤ
  ansiParamCurrent : ℤ
  ansiParamActive : Bool

def Console.hidden (c : Console) : Hidden :=
  ⟨c.serialInitialized, c.serial, c.ansiParams, c.ansiParamCurrent, c.ansiParamActive⟩

/-- `c` with another serial port and other parameters. -/
def Console.hide (k : Hidden) (c : Console) : Console :=
  { c with
    serialInitialized := k.serialInitialized
    serial := k.serial
    ansiParams := k.ansiParams
    ansiParamCurrent := k.ansiParamCurrent
    ansiParamActive := k.ansiParamActive }

/-- `c` with another serial port. -/
def Console.mute (port : Bool × List UInt8) (c : Console) : Console :=
  { c with serialInitialized := port.1, serial := port.2 }

theorem term_of_reset {t u : Term} (h : ansiResetParams t = ansiResetParams u) :
    t = { u with
      ansiParams := t.ansiParams
      ansiParamCurrent := t.ansiParamCurrent
      ansiParamActive := t.ansiParamActive } := by
  cases t
  cases u
  simpa [ansiResetParams] using h

/-- Consoles that differ in nothing else. -/
theorem eq_hide {a b : Console} (hdisplay : a.toDisplay = b.toDisplay)
    (hterm : ansiResetParams a.toTerm = ansiResetParams b.toTerm) : a = b.hide a.hidden := by
  show a = { b with
    toDisplay := b.toDisplay
    toTerm := { b.toTerm with
      ansiParams := a.ansiParams
      ansiParamCurrent := a.ansiParamCurrent
      ansiParamActive := a.ansiParamActive }
    serialInitialized := a.serialInitialized
    serial := a.serial }
  rw [← term_of_reset hterm, ← hdisplay]

/-! ## Drawing -/

theorem scrollIfNeeded_blind : Blind Console.hide scrollIfNeeded := by
  intro k c
  simp only [scrollIfNeeded, apply_ite (Console.hide k)]
  rfl

theorem advanceCursor_blind : Blind Console.hide advanceCursor := by
  intro k c
  simp only [advanceCursor, apply_ite (Console.hide k)]
  rfl

theorem rawPutVisible_blind (byte : UInt8) : Blind Console.hide fun c => rawPutVisible c byte := by
  have hput : Blind Console.hide fun c => c.draw fun d =>
      backendPutCell (d.note (.rawPutVisible byte)) c.cursorRow c.cursorCol byte
        (currentVgaColor c.toTerm) := fun _ _ => rfl
  exact scrollIfNeeded_blind.comp (advanceCursor_blind.comp hput)

theorem rawNewline_blind : Blind Console.hide rawNewline := by
  have hdown : Blind Console.hide fun c =>
      c.update fun t => { t with cursorCol := 0, cursorRow := t.cursorRow + 1 } := fun _ _ => rfl
  exact scrollIfNeeded_blind.comp hdown

theorem retreatCursor_blind : Blind Console.hide retreatCursor := by
  intro k c
  simp only [retreatCursor, apply_ite (Console.hide k)]
  rfl

theorem consoleBackspace_blind : Blind Console.hide consoleBackspace := by
  have hclear : Blind Console.hide fun c =>
      c.draw fun d => backendPutCell d c.cursorRow c.cursorCol 0x20 (currentVgaColor c.toTerm) :=
    fun _ _ => rfl
  exact .ite (p := fun c : Console => c.cursorCol = 0 ∧ c.cursorRow = 0) (fun _ _ => Iff.rfl) .id
    (hclear.comp retreatCursor_blind)

theorem consoleEmitCodepoint_blind (cp : UInt32) :
    Blind Console.hide fun c => consoleEmitCodepoint c cp := by
  have hnote : Blind Console.hide fun c => c.draw fun d => d.note (.emitCodepoint cp) :=
    fun _ _ => rfl
  have hdraw := Blind.ite (p := fun _ => cp ≤ 0x7F) (fun _ _ => Iff.rfl)
    (rawPutVisible_blind cp.toUInt8) (rawPutVisible_blind 0x3F)
  exact (Blind.ite (p := fun _ => cp = 0) (fun _ _ => Iff.rfl) .id hdraw).comp hnote

/-- The decoder does not look at what is hidden: what it does commutes with hiding. -/
theorem consoleEmitUtf8Byte_blind (byte : UInt8) :
    Blind Console.hide fun c => consoleEmitUtf8Byte c byte := by
  have hquestion := consoleEmitCodepoint_blind 0x3F
  have hlead : ∀ v : UInt32, ∀ n : UInt8, Blind Console.hide fun c => c.update fun t =>
      { t with utf8Codepoint := v, utf8Needed := n, utf8Total := n } := fun _ _ _ _ => rfl
  have hreset : Blind Console.hide fun c => c.update fun t =>
      { t with utf8Needed := 0, utf8Total := 0, utf8Codepoint := 0 } := fun _ _ => rfl
  have hshift : Blind Console.hide fun c => shiftIn c byte := fun _ _ => rfl
  have hdone : Blind Console.hide fun c => c.update fun t =>
      { t with utf8Total := 0, utf8Codepoint := 0 } := fun _ _ => rfl
  have hemit : Blind Console.hide fun c =>
      if utf8Valid c.utf8Total c.utf8Codepoint then consoleEmitCodepoint c c.utf8Codepoint
      else consoleEmitCodepoint c 0x3F :=
    .ite (fun _ _ => Iff.rfl) (fun k c => consoleEmitCodepoint_blind c.utf8Codepoint k c) hquestion
  have hlast : Blind Console.hide fun c =>
      if c.utf8Needed = 0 then
        (if utf8Valid c.utf8Total c.utf8Codepoint then consoleEmitCodepoint c c.utf8Codepoint
          else consoleEmitCodepoint c 0x3F).update fun t =>
            { t with utf8Total := 0, utf8Codepoint := 0 }
      else c :=
    .ite (fun _ _ => Iff.rfl) (hdone.comp hemit) .id
  have hfour := Blind.ite (p := fun _ => byte &&& 0xF8 = 0xF0) (fun _ _ => Iff.rfl)
    (hlead (byte &&& 0x07).toUInt32 3) hquestion
  have hthree := Blind.ite (p := fun _ => byte &&& 0xF0 = 0xE0) (fun _ _ => Iff.rfl)
    (hlead (byte &&& 0x0F).toUInt32 2) hfour
  have hfirst := Blind.ite (p := fun _ => byte &&& 0xE0 = 0xC0) (fun _ _ => Iff.rfl)
    (hlead (byte &&& 0x1F).toUInt32 1) hthree
  have hnext := Blind.ite (p := fun _ => byte &&& 0xC0 ≠ 0x80) (fun _ _ => Iff.rfl)
    (hquestion.comp hreset) (hlast.comp hshift)
  exact .ite (p := fun c : Console => c.utf8Needed = 0) (fun _ _ => Iff.rfl) hfirst hnext

theorem consoleHandleGroundByte_blind (byte : UInt8) :
    Blind Console.hide fun c => consoleHandleGroundByte c byte := by
  have hescape : Blind Console.hide fun c => c.update fun t => { t with ansiParserState := .esc } :=
    fun _ _ => rfl
  have hreturn : Blind Console.hide fun c => c.update fun t => { t with cursorCol := 0 } :=
    fun _ _ => rfl
  have htab : Blind Console.hide fun c =>
      forRange 0 (4 - c.cursorCol % 4) (fun c _ => rawPutVisible c 0x20) c :=
    .forRange (fun _ _ => rfl) (fun _ _ => rfl) fun _ => rawPutVisible_blind 0x20
  have htext := Blind.ite (p := fun _ => byte < 0x80) (fun _ _ => Iff.rfl)
    (rawPutVisible_blind byte) (consoleEmitUtf8Byte_blind byte)
  have hvisible := Blind.ite (p := fun _ => byte < 0x20) (fun _ _ => Iff.rfl) .id htext
  have hspaces := Blind.ite (p := fun _ => byte = 0x09) (fun _ _ => Iff.rfl) htab hvisible
  have herase := Blind.ite (p := fun _ => byte = 0x08) (fun _ _ => Iff.rfl) consoleBackspace_blind
    hspaces
  have hstart := Blind.ite (p := fun _ => byte = 0x0D) (fun _ _ => Iff.rfl) hreturn herase
  have hline := Blind.ite (p := fun _ => byte = 0x0A) (fun _ _ => Iff.rfl) rawNewline_blind hstart
  exact .ite (p := fun _ => byte = 0x1B) (fun _ _ => Iff.rfl) hescape hline

/-! ## Executing -/

/-- What does not look at the parameters keeps them. -/
theorem blind_mute {f : Console → Console} (h : Blind Console.hide f) : Blind Console.mute f := by
  intro port c
  have hown : f c = (f c).hide c.hidden := h c.hidden c
  have hparams : (f c).ansiParams = c.ansiParams := congrArg (fun c => c.ansiParams) hown
  have hcurrent : (f c).ansiParamCurrent = c.ansiParamCurrent :=
    congrArg (fun c => c.ansiParamCurrent) hown
  have hactive : (f c).ansiParamActive = c.ansiParamActive :=
    congrArg (fun c => c.ansiParamActive) hown
  refine (h ⟨port.1, port.2, c.ansiParams, c.ansiParamCurrent, c.ansiParamActive⟩ c).trans ?_
  rw [← hparams, ← hcurrent, ← hactive]
  rfl

theorem clearLineRange_blind (row colStart colEnd : ℕ) :
    Blind Console.mute fun c => clearLineRange c row colStart colEnd := by
  intro port c
  simp only [clearLineRange, apply_ite (Console.mute port)]
  rfl

/-- Clearing one line after the other. -/
theorem clearRows_blind (first last : Console → ℕ)
    (hfirst : ∀ port c, first (c.mute port) = first c)
    (hlast : ∀ port c, last (c.mute port) = last c) :
    Blind Console.mute fun c =>
      forRange (first c) (last c) (fun c y => clearLineRange c y 0 (c.termCols - 1)) c :=
  .forRange hfirst hlast fun y port c => clearLineRange_blind y 0 (c.termCols - 1) port c

theorem ansiEraseLine_blind : Blind Console.mute ansiEraseLine := by
  intro port c
  have hline := fun row colStart colEnd => clearLineRange_blind row colStart colEnd port c
  simp only [ansiEraseLine, apply_ite (Console.mute port), ← hline]
  rfl

theorem ansiEraseDisplay_blind : Blind Console.mute ansiEraseDisplay := by
  have hclear : Blind Console.mute consoleClear := fun _ _ => rfl
  have hcursorLine : Blind Console.mute fun c =>
      clearLineRange c c.cursorRow c.cursorCol (c.termCols - 1) :=
    fun port c => clearLineRange_blind c.cursorRow c.cursorCol (c.termCols - 1) port c
  have hlineStart : Blind Console.mute fun c => clearLineRange c c.cursorRow 0 c.cursorCol :=
    fun port c => clearLineRange_blind c.cursorRow 0 c.cursorCol port c
  have hbelow := clearRows_blind (fun c => c.cursorRow + 1) (fun c => c.termRows)
    (fun _ _ => rfl) fun _ _ => rfl
  have habove := clearRows_blind (fun _ => 0) (fun c => c.cursorRow) (fun _ _ => rfl) fun _ _ => rfl
  have hmode : ∀ n : ℤ, ∀ (port : Bool × List UInt8) (c : Console),
      ansiParamAt (c.mute port).toTerm 0 0 = n ↔ ansiParamAt c.toTerm 0 0 = n :=
    fun _ _ _ => Iff.rfl
  have hmode1 := Blind.ite (p := fun c : Console => ansiParamAt c.toTerm 0 0 = 1) (hmode 1)
    (hlineStart.comp habove) .id
  have hmode0 := Blind.ite (p := fun c : Console => ansiParamAt c.toTerm 0 0 = 0) (hmode 0)
    (hbelow.comp hcursorLine) hmode1
  exact .ite (p := fun c : Console => ansiParamAt c.toTerm 0 0 = 2) (hmode 2) hclear hmode0

theorem ansiExecuteCsi_blind (final : UInt8) :
    Blind Console.mute fun c => ansiExecuteCsi c final := by
  intro port c
  simp only [ansiExecuteCsi, apply_ite (Console.mute port), ← ansiEraseDisplay_blind port c,
    ← ansiEraseLine_blind port c]
  rfl

theorem consoleHandleCsiByte_blind (byte : UInt8) :
    Blind Console.mute fun c => consoleHandleCsiByte c byte := by
  have hdigit : Blind Console.mute fun c => c.update fun t =>
      { t with
        ansiParamCurrent := int32 (t.ansiParamCurrent * 10 + (byte - 0x30).toNat)
        ansiParamActive := true } := fun _ _ => rfl
  have hpush : Blind Console.mute fun c => c.update ansiPushCurrentParam := fun _ _ => rfl
  have hreset : Blind Console.mute fun c =>
      c.update fun t => ansiResetParams { t with ansiParserState := .ground } := fun _ _ => rfl
  have habort : Blind Console.mute fun c =>
      c.update fun t => { t with ansiParserState := .ground } := fun _ _ => rfl
  have hexecute := Blind.ite (p := fun _ => 0x40 ≤ byte ∧ byte ≤ 0x7E) (fun _ _ => Iff.rfl)
    (hreset.comp ((ansiExecuteCsi_blind byte).comp hpush)) habort
  have hnext := Blind.ite (p := fun _ => byte = 0x3B) (fun _ _ => Iff.rfl) hpush hexecute
  exact .ite (p := fun _ => 0x30 ≤ byte ∧ byte ≤ 0x39) (fun _ _ => Iff.rfl) hdigit hnext

/-! ## Two runs -/

/-- Two consoles that differ at most in their serial ports. -/
structure Agree (a b : Console) : Prop where
  display : a.toDisplay = b.toDisplay
  term : a.toTerm = b.toTerm

namespace Agree

variable {a b c : Console}

theorem trans (h : Agree a b) (h' : Agree b c) : Agree a c :=
  ⟨h.display.trans h'.display, h.term.trans h'.term⟩

theorem symm (h : Agree a b) : Agree b a := ⟨h.display.symm, h.term.symm⟩

theorem eq_mute (h : Agree a b) : a = b.mute (a.serialInitialized, a.serial) := by
  show a = { b with
    toDisplay := b.toDisplay
    toTerm := b.toTerm
    serialInitialized := a.serialInitialized
    serial := a.serial }
  rw [← h.display, ← h.term]

theorem blind {f : Console → Console} (hf : Blind Console.mute f) (h : Agree a b) :
    Agree (f a) (f b) := by
  rw [h.eq_mute, hf]
  exact ⟨rfl, rfl⟩

end Agree

variable {a b c : Console}

/-- What `console_putc` sends to the serial port before it looks at the byte. -/
def Console.sent (c : Console) (byte : UInt8) : Console :=
  serialWriteChar (if byte = 0x0A then serialWriteChar c 0x0D else c) byte

theorem sent_agree (c : Console) (byte : UInt8) : Agree (c.sent byte) c := by
  have hserial : ∀ (c : Console) (byte : UInt8), Agree (serialWriteChar c byte) c :=
    fun c byte => ⟨serialWriteChar_toDisplay c byte, serialWriteChar_toTerm c byte⟩
  rw [Console.sent]
  split
  · exact (hserial _ _).trans (hserial _ _)
  · exact hserial _ _

/-- What `console_putc` does with the byte then. -/
theorem consolePutc_sent_ground {byte : UInt8} (h : (c.sent byte).ansiParserState = .ground) :
    consolePutc c byte = consoleHandleGroundByte (c.sent byte) byte := by
  rw [Console.sent] at h ⊢
  rw [consolePutc]
  simp only [h]

theorem consolePutc_sent_esc {byte : UInt8} (h : (c.sent byte).ansiParserState = .esc) :
    consolePutc c byte =
      if byte = 0x5B then
        (c.sent byte).update fun t => ansiResetParams { t with ansiParserState := .csi }
      else
        consoleHandleGroundByte
          ((c.sent byte).update fun t => { t with ansiParserState := .ground }) byte := by
  rw [Console.sent] at h ⊢
  rw [consolePutc]
  simp only [h]

theorem consolePutc_sent_csi {byte : UInt8} (h : (c.sent byte).ansiParserState = .csi) :
    consolePutc c byte = consoleHandleCsiByte (c.sent byte) byte := by
  rw [Console.sent] at h ⊢
  rw [consolePutc]
  simp only [h]

/-- `console_putc` does not look at the serial port. -/
theorem Agree.putc (h : Agree a b) (byte : UInt8) :
    Agree (consolePutc a byte) (consolePutc b byte) := by
  have hsent : Agree (a.sent byte) (b.sent byte) :=
    (sent_agree a byte).trans (h.trans (sent_agree b byte).symm)
  have hstate : (a.sent byte).ansiParserState = (b.sent byte).ansiParserState := by rw [hsent.term]
  have hcsi : Blind Console.mute fun c =>
      c.update fun t => ansiResetParams { t with ansiParserState := .csi } := fun _ _ => rfl
  have hground : Blind Console.mute fun c =>
      c.update fun t => { t with ansiParserState := .ground } := fun _ _ => rfl
  have hbyte := blind_mute (consoleHandleGroundByte_blind byte)
  have hescape := Blind.ite (p := fun _ => byte = 0x5B) (fun _ _ => Iff.rfl) hcsi
    (hbyte.comp hground)
  cases hb : (b.sent byte).ansiParserState with
  | ground =>
    rw [consolePutc_sent_ground (hstate.trans hb), consolePutc_sent_ground hb]
    exact hsent.blind hbyte
  | esc =>
    rw [consolePutc_sent_esc (hstate.trans hb), consolePutc_sent_esc hb]
    exact hsent.blind hescape
  | csi =>
    rw [consolePutc_sent_csi (hstate.trans hb), consolePutc_sent_csi hb]
    exact hsent.blind (consoleHandleCsiByte_blind byte)

theorem Agree.putcs (bytes : List UInt8) :
    ∀ {a b : Console}, Agree a b →
      Agree (bytes.foldl consolePutc a) (bytes.foldl consolePutc b) := by
  induction bytes with
  | nil => exact fun h => h
  | cons byte bytes ih => exact fun h => ih (h.putc byte)

/-- The same cells, cursor, colours and parser state. It is what a user can see now, and all that
later bytes depend on as long as no sequence is open. -/
structure SameEffect (a b : Console) : Prop where
  cell : ∀ r k, r < a.termRows → k < a.termCols → a.cell r k = b.cell r k
  cursorRow : a.cursorRow = b.cursorRow
  cursorCol : a.cursorCol = b.cursorCol
  ansiFg : a.ansiFg = b.ansiFg
  ansiBg : a.ansiBg = b.ansiBg
  parser : SameParser b.toTerm a.toTerm

theorem Agree.sameEffect (h : Agree a b) : SameEffect a b := by
  rw [h.eq_mute]
  exact ⟨fun _ _ _ _ => rfl, rfl, rfl, rfl, rfl, rfl, rfl, rfl, rfl⟩

/-! ## The interrupting byte -/

/-- ESC outside a control sequence. -/
theorem consolePutc_escape (hcsi : c.ansiParserState ≠ .csi) :
    Agree (consolePutc c 0x1B) (c.update fun t => { t with ansiParserState := .esc }) := by
  have hsent := sent_agree c 0x1B
  have hescape : Blind Console.mute fun c => c.update fun t => { t with ansiParserState := .esc } :=
    fun _ _ => rfl
  have hput : consolePutc c 0x1B =
      (c.sent 0x1B).update fun t => { t with ansiParserState := .esc } := by
    rw [consolePutc, if_neg (by decide)]
    rw [serialWriteChar_toTerm]
    cases hstate : c.ansiParserState with
    | ground => rfl
    | esc => rfl
    | csi => exact absurd hstate hcsi
  rw [hput]
  exact hsent.blind hescape

/-- ESC inside one is its end. -/
theorem consolePutc_escape_csi (hcsi : c.ansiParserState = .csi) :
    Agree (consolePutc c 0x1B) (c.update fun t => { t with ansiParserState := .ground }) := by
  have hground : Blind Console.mute fun c =>
      c.update fun t => { t with ansiParserState := .ground } := fun _ _ => rfl
  rw [consolePutc_abort hcsi (by decide) (by decide) (by decide)]
  exact (sent_agree c 0x1B).blind hground

theorem reset_push (t : Term) : ansiResetParams (ansiPushCurrentParam t) = ansiResetParams t := by
  rw [ansiPushCurrentParam]
  split
  · rfl
  · dsimp only
    split <;> rfl

/-- Parameters are all that a parameter changes. -/
theorem reset_csiParam (t : Term) (byte : UInt8) :
    ansiResetParams (csiParam t byte) = ansiResetParams t := by
  rw [csiParam]
  split
  · rfl
  · exact reset_push t

theorem reset_csiParams (params : List UInt8) (t : Term) :
    ansiResetParams (params.foldl csiParam t) = ansiResetParams t := by
  induction params generalizing t with
  | nil => rfl
  | cons b params ih => exact (ih _).trans (reset_csiParam t b)

/-- Behind an abandoned control sequence the console is where it was, but for parameters. -/
theorem interrupted_csi (hground : c.ansiParserState = .ground) {params : List UInt8}
    (hparams : ∀ b ∈ params, IsParam b) :
    let u := ([0x1B, 0x5B] ++ params ++ [0x1B]).foldl consolePutc c
    u.toDisplay = c.toDisplay ∧ ansiResetParams u.toTerm = ansiResetParams c.toTerm := by
  intro u
  obtain ⟨-, hdisplay, hterm⟩ := consolePutcs_introducer hground
  obtain ⟨hdisplays, hterms, hstate⟩ := consolePutcs_params params (introducer_csi hground) hparams
  have hescape := consolePutc_escape_csi hstate
  have hu : u = consolePutc (params.foldl consolePutc ([0x1B, 0x5B].foldl consolePutc c)) 0x1B := by
    show ([0x1B, 0x5B] ++ params ++ [0x1B]).foldl consolePutc c = _
    rw [List.foldl_append, List.foldl_append, List.foldl_cons, List.foldl_nil]
  rw [hu, hescape.display, hescape.term]
  refine ⟨hdisplays.trans hdisplay, ?_⟩
  have hreset : ∀ t : Term, ansiResetParams { t with ansiParserState := .ground } =
      { ansiResetParams t with ansiParserState := .ground } := fun _ => rfl
  show ansiResetParams { (params.foldl consolePutc ([0x1B, 0x5B].foldl consolePutc c)).toTerm with
    ansiParserState := .ground } = _
  rw [hreset, hterms, reset_csiParams, hterm, ← hground]
  rfl

/-! ## A blank screen -/

/-- An 80 by 25 screen in text mode with nothing on it. -/
structure Blank (d : Display) : Prop where
  geometry : d.toGeometry = vgaText
  cell : ∀ r k, r < vgaHeight → k < vgaWidth → d.cell r k = vgaEntry 0x20 0x0F

/-- Blanks leave it blank. -/
theorem Blank.put {d : Display} (h : Blank d) (row col : ℕ) :
    Blank (backendPutCell d row col 0x20 0x0F) := by
  refine ⟨(backendPutCell_geometry _ _ _ _ _).trans h.geometry, fun r k hr hk => ?_⟩
  have hrows : d.termRows = vgaHeight := congrArg (fun g => g.termRows) h.geometry
  have hcols : d.termCols = vgaWidth := congrArg (fun g => g.termCols) h.geometry
  by_cases hout : d.termRows ≤ row ∨ d.termCols ≤ col
  · rw [backendPutCell, if_pos hout]
    exact h.cell r k hr hk
  · obtain ⟨hrow, hcol⟩ := not_or.mp hout
    rw [backendPutCell_cell (Nat.lt_of_not_le hrow) (Nat.lt_of_not_le hcol) (by decide) 0x0F
      (hcols ▸ hk)]
    split
    · rfl
    · exact h.cell r k hr hk

/-- A console with a blank screen and the default colours. -/
structure Fresh (c : Console) : Prop where
  blank : Blank c.toDisplay
  color : currentVgaColor c.toTerm = 0x0F

/-- A branch between two that leave the screen blank. -/
theorem blank_ite {p : Prop} [Decidable p] (ha : Blank a.toDisplay) (hb : Blank b.toDisplay) :
    Blank (if p then a else b).toDisplay := by
  split
  · exact ha
  · exact hb

theorem Fresh.clearLineRange (h : Fresh c) (row colStart colEnd : ℕ) :
    Fresh (clearLineRange c row colStart colEnd) := by
  have hite : ∀ {p : Prop} [Decidable p] {a b : Console}, Fresh a → Fresh b →
      Fresh (if p then a else b) := by
    intro p _ a b ha hb
    split
    · exact ha
    · exact hb
  refine hite h (hite h ⟨?_, h.color⟩)
  rw [h.color]
  exact forRange_invariant h.blank fun x d _ _ hd => hd.put row x

theorem Fresh.clearRows (h : Fresh c) (first last : ℕ) :
    Fresh (forRange first last (fun c y => WaluOs.clearLineRange c y 0 (c.termCols - 1)) c) :=
  forRange_invariant h fun y c _ _ hc => hc.clearLineRange y 0 (c.termCols - 1)

theorem consoleClear_fresh (hg : c.toGeometry = vgaText) : Fresh (consoleClear c) := by
  obtain ⟨hgeometry, hcell⟩ := backendClearAll_spec c.toDisplay 0x0F
  have hrows : c.termRows = vgaHeight := congrArg (fun g => g.termRows) hg
  have hcols : c.termCols = vgaWidth := congrArg (fun g => g.termCols) hg
  rw [hrows, hcols] at hcell
  refine ⟨?_, by rw [consoleClear_toTerm]; decide⟩
  rw [consoleClear_toDisplay]
  exact ⟨hgeometry.trans hg, hcell⟩

/-- A control sequence draws nothing on a blank screen. -/
theorem Fresh.ansiExecuteCsi (h : Fresh c) (final : UInt8) :
    Blank (ansiExecuteCsi c final).toDisplay := by
  have hsame := h.blank
  have hdisplay : Blank (ansiEraseDisplay c).toDisplay := by
    rw [ansiEraseDisplay]
    refine blank_ite (consoleClear_fresh h.blank.geometry).blank (blank_ite ?_ (blank_ite ?_ hsame))
    · exact ((h.clearLineRange _ _ _).clearRows _ _).blank
    · exact ((h.clearRows _ _).clearLineRange _ _ _).blank
  have hline : Blank (ansiEraseLine c).toDisplay :=
    blank_ite (h.clearLineRange _ _ _).blank
      (blank_ite (h.clearLineRange _ _ _).blank (blank_ite (h.clearLineRange _ _ _).blank hsame))
  have hsgr : Blank (if c.ansiParams = [] then c.update fun t => ansiSgrApply t 0
      else c.update fun t => t.ansiParams.foldl ansiSgrApply t).toDisplay := blank_ite hsame hsame
  rw [WaluOs.ansiExecuteCsi]
  refine blank_ite hsgr (blank_ite hsame ?_)
  refine blank_ite hsame (blank_ite hsame (blank_ite hsame (blank_ite hsame ?_)))
  exact blank_ite hdisplay (blank_ite hline (blank_ite hsame (blank_ite hsame hsame)))

/-- The colours are not parameters. -/
theorem currentVgaColor_reset (t : Term) :
    currentVgaColor (ansiResetParams t) = currentVgaColor t := rfl

/-- The whole sequence. -/
theorem Fresh.csi (h : Fresh c) (hground : c.ansiParserState = .ground) {params : List UInt8}
    (hparams : ∀ b ∈ params, IsParam b) {final : UInt8} (hfinal : IsFinal final) :
    Blank (([0x1B, 0x5B] ++ params ++ [final]).foldl consolePutc c).toDisplay := by
  obtain ⟨-, hdisplay, hterm⟩ := consolePutcs_introducer hground
  obtain ⟨hdisplays, hterms, hstate⟩ := consolePutcs_params params (introducer_csi hground) hparams
  let u := params.foldl consolePutc ([0x1B, 0x5B].foldl consolePutc c)
  have hcolor : currentVgaColor u.toTerm = 0x0F := by
    rw [← currentVgaColor_reset, hterms, reset_csiParams, hterm]
    exact h.color
  have hfresh : Fresh (csiCall u final) := by
    refine ⟨?_, ?_⟩
    · show Blank (serialWriteChar u final).toDisplay
      rw [serialWriteChar_toDisplay, hdisplays, hdisplay]
      exact h.blank
    · rw [← currentVgaColor_reset]
      show currentVgaColor
        (ansiResetParams (ansiPushCurrentParam (serialWriteChar u final).toTerm)) = _
      rw [serialWriteChar_toTerm, reset_push]
      exact hcolor
  rw [List.foldl_append, List.foldl_append, List.foldl_cons, List.foldl_nil,
    consolePutc_final hstate hfinal]
  exact hfresh.ansiExecuteCsi final

/-! ## Text -/

/-- The byte that was written last is on the screen. -/
theorem Tracks.last {g : Geometry} {p : Page UInt8} (h : Tracks g c p) (hrows : 2 ≤ g.termRows)
    {byte : UInt8} (hlo : 0x20 ≤ byte) (hhi : byte ≤ 0x7E) :
    (consolePutc c byte).toGeometry = g ∧ ∃ r k, r < g.termRows ∧ k < g.termCols ∧
      (consolePutc c byte).cell r k = vgaEntry byte 0x0F := by
  have hcol : p.col < g.termCols := by
    obtain ⟨s, -, hs⟩ := h
    exact hs.col ▸ hs.col_lt
  obtain ⟨s, hm, hs⟩ := consolePutc_tracks h (Or.inl ⟨hlo, hhi⟩)
  rw [layByte_printable _ _ hlo] at hs
  have hrow := hs.row
  have hlt := hs.row_lt
  have hput : p.row ≤ (p.put g.termCols byte).row ∧ (p.put g.termCols byte).row ≤ p.row + 1 := by
    rw [Page.put_row]
    split <;> omega
  have hoffset : (p.put g.termCols byte).offset g.termRows ≤ p.row := by
    rw [Page.offset]
    omega
  have hshown : p.row - (p.put g.termCols byte).offset g.termRows < g.termRows := by omega
  refine ⟨hm.geometry, p.row - (p.put g.termCols byte).offset g.termRows, p.col, hshown, hcol, ?_⟩
  rw [hm.cell _ _ hshown hcol, hs.cells _ _ hshown, Page.put_cells, if_pos ⟨by omega, rfl⟩]

theorem vgaEntry_ne_blank {byte : UInt8} (hlo : 0x20 < byte) (hhi : byte ≤ 0x7E) :
    vgaEntry byte 0x0F ≠ vgaEntry 0x20 0x0F := by
  have hall : ∀ n < 0x7F, 0x20 < n → vgaEntry (UInt8.ofNat n) 0x0F ≠ vgaEntry 0x20 0x0F := by
    decide +kernel
  have h := hall byte.toNat (Nat.lt_succ_of_le (UInt8.le_iff_toNat_le.mp hhi))
    (UInt8.lt_iff_toNat_lt.mp hlo)
  rwa [UInt8.ofNat_toNat] at h

/-! ## ESC always starts a new sequence -/

/-- An escape sequence that is not finished: anything after which the console still waits for
more. -/
inductive EscapePrefix : Type where
  /-- ESC -/
  | esc : EscapePrefix
  /-- ESC `[` and any digits and `;` -/
  | csi (params : List UInt8) (hparams : ∀ b ∈ params, IsParam b) : EscapePrefix

/-- What was written of it. -/
def EscapePrefix.bytes : EscapePrefix → List UInt8
  | .esc => [0x1B]
  | .csi params _ => [0x1B, 0x5B] ++ params

/-- An escape sequence of the console, as far as it understands them: two bytes, or a control
sequence with digits and `;` only. -/
inductive EscapeSequence : Type where
  /-- ESC and a byte that is not `[` -/
  | two (byte : UInt8) (hbyte : byte ≠ 0x5B) : EscapeSequence
  /-- ESC `[`, any digits and `;`, and a final byte -/
  | csi (params : List UInt8) (hparams : ∀ b ∈ params, IsParam b) (final : UInt8)
      (hfinal : IsFinal final) : EscapeSequence

/-- What is written. -/
def EscapeSequence.bytes : EscapeSequence → List UInt8
  | .two byte _ => [0x1B, byte]
  | .csi params _ final _ => [0x1B, 0x5B] ++ params ++ [final]

/-- Behind ESC alone, whatever the second ESC begins. -/
theorem escEsc_agree (hground : c.ansiParserState = .ground) (bytes : List UInt8) :
    Agree (([0x1B, 0x1B] ++ bytes).foldl consolePutc c)
      (([0x1B] ++ bytes).foldl consolePutc c) := by
  have hfirst := consolePutc_escape (c := c) (by rw [hground]; decide)
  have hesc : (consolePutc c 0x1B).ansiParserState = .esc := by
    rw [hfirst.term]
    rfl
  have hsecond := consolePutc_escape (c := consolePutc c 0x1B) (by rw [hesc]; decide)
  have hsame : Agree ((consolePutc c 0x1B).update fun t => { t with ansiParserState := .esc })
      (consolePutc c 0x1B) := by
    refine ⟨rfl, ?_⟩
    show { (consolePutc c 0x1B).toTerm with ansiParserState := .esc } = _
    rw [← hesc]
  exact (hsecond.trans hsame).putcs bytes

/-- A byte that is not `[`, behind ESC. -/
theorem consolePutc_two (hground : c.ansiParserState = .ground) {byte : UInt8}
    (hbyte : byte ≠ 0x5B) :
    Agree ([0x1B, byte].foldl consolePutc c) (consoleHandleGroundByte c byte) := by
  have hescape := consolePutc_escape (c := c) (by rw [hground]; decide)
  have hesc : ((consolePutc c 0x1B).sent byte).ansiParserState = .esc := by
    rw [(sent_agree _ _).term, hescape.term]
    rfl
  have hput : consolePutc (consolePutc c 0x1B) byte = consoleHandleGroundByte
      (((consolePutc c 0x1B).sent byte).update fun t => { t with ansiParserState := .ground })
      byte := by
    rw [consolePutc_sent_esc hesc, if_neg hbyte]
  have hback : Agree
      (((consolePutc c 0x1B).sent byte).update
        fun t => { t with ansiParserState := .ground }) c := by
    refine ⟨(sent_agree _ _).display.trans hescape.display, ?_⟩
    show { ((consolePutc c 0x1B).sent byte).toTerm with ansiParserState := .ground } = _
    rw [(sent_agree _ _).term, hescape.term, ← hground]
    rfl
  rw [List.foldl_cons, List.foldl_cons, List.foldl_nil, hput]
  exact hback.blind (blind_mute (consoleHandleGroundByte_blind byte))

/-- Behind an abandoned control sequence, ESC and a byte that is not `[`. -/
theorem twoBehindCsi_sameEffect (hground : c.ansiParserState = .ground) {params : List UInt8}
    (hparams : ∀ b ∈ params, IsParam b) {byte : UInt8} (hbyte : byte ≠ 0x5B) :
    SameEffect (([0x1B, 0x5B] ++ params ++ [0x1B, byte]).foldl consolePutc c)
      ([0x1B, byte].foldl consolePutc c) := by
  obtain ⟨hdisplay, hterm⟩ := interrupted_csi hground hparams
  let u := ([0x1B, 0x5B] ++ params ++ [0x1B]).foldl consolePutc c
  have hbytes : [0x1B, 0x5B] ++ params ++ [0x1B, byte] =
      [0x1B, 0x5B] ++ params ++ [0x1B] ++ [byte] := by
    rw [List.append_assoc _ [0x1B] [byte]]
    rfl
  have hstate : (u.sent byte).ansiParserState = .ground := by
    rw [(sent_agree u byte).term]
    exact (congrArg (fun t => t.ansiParserState) hterm).trans hground
  have hput : consolePutc u byte = consoleHandleGroundByte (u.sent byte) byte :=
    consolePutc_sent_ground hstate
  have hhidden : u.sent byte = c.hide (u.sent byte).hidden := by
    refine eq_hide ((sent_agree u byte).display.trans hdisplay) ?_
    rw [(sent_agree u byte).term]
    exact hterm
  have halone := (consolePutc_two hground hbyte).eq_mute
  rw [hbytes, List.foldl_append]
  show SameEffect (consolePutc u byte) _
  have hmoved := consoleHandleGroundByte_blind byte (u.sent byte).hidden c
  dsimp only at hmoved
  rw [hput, hhidden, hmoved, halone]
  exact ⟨fun _ _ _ _ => rfl, rfl, rfl, rfl, rfl, rfl, rfl, rfl, rfl⟩

/-- A control sequence behind an abandoned one is drawn: its ESC ends the first one, and its `[`
and what follows are text. -/
theorem csiBehindCsi_drawn {params params' : List UInt8} (hparams : ∀ b ∈ params, IsParam b)
    (hparams' : ∀ b ∈ params', IsParam b) {final : UInt8} (hfinal : IsFinal final) :
    let c := consoleClear (idleConsole vgaText)
    ¬SameEffect
      (([0x1B, 0x5B] ++ params ++ ([0x1B, 0x5B] ++ params' ++ [final])).foldl consolePutc c)
      (([0x1B, 0x5B] ++ params' ++ [final]).foldl consolePutc c) := by
  intro c hsame
  let u := ([0x1B, 0x5B] ++ params ++ [0x1B]).foldl consolePutc c
  obtain ⟨hdisplay, hterm⟩ := interrupted_csi (c := c) rfl hparams
  have hfresh : Fresh c := consoleClear_fresh rfl
  have htracks : Tracks vgaText u (Page.blank 0x20) := by
    have hm : Mirrors vgaText c (Page.blank 0x20) := consoleClear_mirrors (idleConsole vgaText)
    have hhidden : u = c.hide u.hidden := eq_hide hdisplay hterm
    refine ⟨_, ?_, Shows.blank (by decide) (by decide) 0x20⟩
    rw [hhidden]
    exact ⟨hm.geometry, hm.ground, hm.color, hm.row, hm.col, hm.cell⟩
  have htext : ∀ b ∈ 0x5B :: params', IsText b := by
    refine List.forall_mem_cons.mpr ⟨by decide, fun b hb => Or.inl ?_⟩
    rcases hparams' b hb with ⟨hlo, hhi⟩ | rfl
    · exact ⟨UInt8.le_trans (by decide) hlo, UInt8.le_trans hhi (by decide)⟩
    · decide
  have hbytes : [0x1B, 0x5B] ++ params ++ ([0x1B, 0x5B] ++ params' ++ [final]) =
      [0x1B, 0x5B] ++ params ++ [0x1B] ++ (0x5B :: params') ++ [final] := by
    simp
  have hlo : 0x20 < final := UInt8.lt_of_lt_of_le (by decide) hfinal.1
  obtain ⟨hgeometry, r, k, hr, hk, hdrawn⟩ :=
    (consolePutcs_tracks _ htracks htext).last (by decide) (UInt8.le_of_lt hlo) hfinal.2
  have hblank := (hfresh.csi rfl hparams' hfinal).cell r k hr hk
  have hcell := hsame.cell r k
  rw [hbytes, List.foldl_append, List.foldl_append, List.foldl_cons, List.foldl_nil, hgeometry,
    hdrawn, hblank] at hcell
  exact vgaEntry_ne_blank hlo hfinal.2 (hcell hr hk)

/-- **ESC starts a new sequence exactly** behind ESC alone, and where what follows it is not a
control sequence. An ESC in the middle of a control sequence ends that, and is lost itself. -/
theorem escRestarts_iff (p : EscapePrefix) (s : EscapeSequence) :
    (∀ c : Console, c.ansiParserState = .ground →
        SameEffect ((p.bytes ++ s.bytes).foldl consolePutc c) (s.bytes.foldl consolePutc c)) ↔
      p = .esc ∨ ∃ byte hbyte, s = .two byte hbyte := by
  constructor
  · intro h
    cases p with
    | esc => exact Or.inl rfl
    | csi params hparams =>
      cases s with
      | two byte hbyte => exact Or.inr ⟨byte, hbyte, rfl⟩
      | csi params' hparams' final hfinal =>
        exact absurd (h _ rfl) (csiBehindCsi_drawn hparams hparams' hfinal)
  · intro h c hground
    cases p with
    | esc =>
      cases s with
      | two byte hbyte => exact (escEsc_agree hground [byte]).sameEffect
      | csi params hparams final hfinal =>
        exact (escEsc_agree hground (0x5B :: params ++ [final])).sameEffect
    | csi params hparams =>
      obtain ⟨byte, hbyte, rfl⟩ := h.resolve_left nofun
      exact twoBehindCsi_sameEffect hground hparams hbyte

/-- Behind ESC `[1`, ESC `[31m` is drawn as `[31m`. -/
theorem interruptedRed_drawn :
    let p := EscapePrefix.csi [0x31] (List.all_iff_forall_prop.mp rfl)
    let s := EscapeSequence.csi [0x33, 0x31] (List.all_iff_forall_prop.mp rfl) 0x6D (by decide)
    (idleConsole vgaText).ansiParserState = .ground ∧
      ((p.bytes ++ s.bytes).foldl consolePutc (idleConsole vgaText)).shown =
        [.rawPutVisible 0x5B, .rawPutVisible 0x33, .rawPutVisible 0x31, .rawPutVisible 0x6D] ∧
      ¬SameEffect ((p.bytes ++ s.bytes).foldl consolePutc (idleConsole vgaText))
        (s.bytes.foldl consolePutc (idleConsole vgaText)) :=
  ⟨rfl, by decide, fun h => absurd h.cursorCol (by decide)⟩

end WaluOs
