import WaluOs.InputSequences

/-!
# The line editor and its echo

In canonical mode a byte that passes the escape filter edits the pending line. `editLine` is
what it does to the line and to the truncation flag, and what it echoes; where the reader's
queue ends up plays no part in it (`ttyReceive_edits`). The bytes that do not get here, those
of escape sequences and those received in noncanonical mode, leave line and flag alone.
-/

namespace WaluOs

/-- The line buffer and its flag, which says that bytes of this line were lost. -/
structure LineState : Type where
  /-- the first `tty_line_len` bytes of `tty_line_buffer` -/
  line : List UInt8
  /-- `tty_line_truncated` -/
  truncated : Bool
  deriving DecidableEq, Repr

def Sys.lineState (s : Sys) : LineState := ⟨s.tty.ttyLine, s.tty.ttyLineTruncated⟩

/-- A byte that passed the filter: what it leaves, and the calls into the console. -/
def editLine (echo : Bool) (l : LineState) (byte : UInt8) : LineState × List Call :=
  if byte = 0x03 then
    (⟨[], l.truncated⟩, if echo then [.consoleWrite (text "^C\n")] else [])
  else if byte = 0x0C then
    (l, [])
  else if byte = 0x08 ∨ byte = 0x7F then
    if l.line.length > 0 then
      (⟨l.line.dropLast, l.truncated⟩, if echo then [.consoleBackspace] else [])
    else
      (l, [])
  else if byte = 0x0A then
    (⟨[], false⟩, if echo then [.consolePutc 0x0A] else [])
  else if byte = 0x04 then
    (⟨[], l.truncated⟩, [])
  else if !ttyIsPrintable byte then
    (l, [])
  else if l.line.length + 1 ≥ ttyLineBufferSize then
    (⟨l.line, true⟩, if !l.truncated && echo then [.consolePutc 0x07] else [])
  else
    (⟨l.line ++ [byte], l.truncated⟩, if echo then [.consolePutc byte] else [])

/-- `s'` is `s` after an edit with the result `r`: the line, its flag, and the echo. Modes and
filter are left alone. -/
structure Edits (s s' : Sys) (r : LineState × List Call) : Prop where
  state : s'.lineState = r.1
  calls : s'.calls = s.calls ++ r.2
  echo : s'.tty.ttyEcho = s.tty.ttyEcho
  canonical : s'.tty.ttyCanonical = s.tty.ttyCanonical
  escape : s'.tty.ttyEscapeState = s.tty.ttyEscapeState

namespace Edits

variable {s s₁ s₂ : Sys} {x y : LineState × List Call} {l : LineState}

theorem same (s : Sys) : Edits s s (s.lineState, []) :=
  ⟨rfl, (List.append_nil _).symm, rfl, rfl, rfl⟩

/-- A branch on both sides. -/
theorem ite {p : Prop} [Decidable p] (hx : p → Edits s s₁ x) (hy : ¬p → Edits s s₂ y) :
    Edits s (if p then s₁ else s₂) (if p then x else y) := by
  split
  · exact hx ‹_›
  · exact hy ‹_›

/-- Another step that calls nothing. -/
theorem andThen {l' : LineState} (h : Edits s s₁ (l', [])) (h' : Edits s₁ s₂ (l, [])) :
    Edits s s₂ (l, []) :=
  ⟨h'.state, by rw [h'.calls, h.calls, List.append_nil], h'.echo.trans h.echo,
    h'.canonical.trans h.canonical, h'.escape.trans h.escape⟩

/-- An echo. -/
theorem emit_if (h : Edits s s₁ (l, [])) (q : Bool → Bool) (cs : List Call) :
    Edits s (if q s₁.tty.ttyEcho then s₁.emit cs else s₁)
      (l, if q s.tty.ttyEcho then cs else []) := by
  have hcalls : s₁.calls = s.calls := by rw [h.calls, List.append_nil]
  rw [h.echo]
  cases q s.tty.ttyEcho
  · exact h
  · exact ⟨h.state, congrArg (· ++ cs) hcalls, h.echo, h.canonical, h.escape⟩

end Edits

/-! ## Delivering -/

/-- The reader's queue is none of the editor's business. -/
theorem ttyEnqueueRead_edits (s : Sys) (byte : UInt8) :
    Edits s (ttyEnqueueRead s byte).1 (s.lineState, []) := by
  rw [ttyEnqueueRead]
  dsimp only
  split_ifs <;> exact ⟨rfl, (List.append_nil _).symm, rfl, rfl, rfl⟩

theorem ttyFlushLineBuffer_edits (s : Sys) :
    Edits s (ttyFlushLineBuffer s) (⟨[], s.tty.ttyLineTruncated⟩, []) := by
  have h := List.foldlRecOn (motive := fun u => Edits s u (s.lineState, [])) s.tty.ttyLine
    (fun u b => (ttyEnqueueRead u b).1) (Edits.same s) fun u hu b _ => by
      have hstate : u.lineState = s.lineState := hu.state
      have hnext := ttyEnqueueRead_edits u b
      rw [hstate] at hnext
      exact hu.andThen hnext
  have hflag := congrArg LineState.truncated h.state
  refine ⟨?_, h.calls, h.echo, h.canonical, h.escape⟩
  exact congrArg (LineState.mk []) hflag

/-! ## The branches -/

theorem ttyHandleNewline_edits (s : Sys) :
    Edits s (ttyHandleNewline s)
      (⟨[], false⟩, if s.tty.ttyEcho then [.consolePutc 0x0A] else []) := by
  have hend : ∀ u : Sys, u.calls = s.calls → u.tty.ttyEcho = s.tty.ttyEcho →
      u.tty.ttyCanonical = s.tty.ttyCanonical → u.tty.ttyEscapeState = s.tty.ttyEscapeState →
        Edits s { ttyFlushLineBuffer (if u.tty.ttyEcho then u.emit [.consolePutc 0x0A] else u) with
            tty.ttyLineTruncated := false }
          (⟨[], false⟩, if s.tty.ttyEcho then [.consolePutc 0x0A] else []) := by
    intro u hcalls hecho hcanonical hescape
    have hechoed : Edits s (if u.tty.ttyEcho then u.emit [.consolePutc 0x0A] else u)
        (u.lineState, if s.tty.ttyEcho then [.consolePutc 0x0A] else []) :=
      Edits.emit_if (l := u.lineState) (q := fun b => b)
        ⟨rfl, hcalls.trans (List.append_nil _).symm, hecho, hcanonical, hescape⟩ _
    have hflush := ttyFlushLineBuffer_edits
      (if u.tty.ttyEcho then u.emit [.consolePutc 0x0A] else u)
    refine ⟨rfl, ?_, hflush.echo.trans hechoed.echo, hflush.canonical.trans hechoed.canonical,
      hflush.escape.trans hechoed.escape⟩
    exact (hflush.calls.trans (List.append_nil _)).trans hechoed.calls
  rw [ttyHandleNewline]
  split
  · exact hend _ rfl rfl rfl rfl
  · exact hend _ rfl rfl rfl rfl

theorem ttyHandleData_edits (s : Sys) (byte : UInt8) :
    Edits s (ttyHandleData s byte)
      (if s.tty.ttyLine.length + 1 ≥ ttyLineBufferSize then
        (⟨s.tty.ttyLine, true⟩,
          if !s.tty.ttyLineTruncated && s.tty.ttyEcho then [.consolePutc 0x07] else [])
      else
        (⟨s.tty.ttyLine ++ [byte], s.tty.ttyLineTruncated⟩,
          if s.tty.ttyEcho then [.consolePutc byte] else [])) := by
  rw [ttyHandleData]
  refine .ite (fun _ => ?_) fun _ => ?_
  · have hcounted : Edits s
        { s with
          tty.ttyDropCount := s.tty.ttyDropCount + 1
          tty.ttyLineOverflowCount := s.tty.ttyLineOverflowCount + 1 } (s.lineState, []) :=
      ⟨rfl, (List.append_nil _).symm, rfl, rfl, rfl⟩
    have hbell := hcounted.emit_if (q := fun echo => !s.tty.ttyLineTruncated && echo)
      [.consolePutc 0x07]
    exact ⟨congrArg (fun l : LineState => LineState.mk l.line true) hbell.state, hbell.calls,
      hbell.echo, hbell.canonical, hbell.escape⟩
  · have hjoined : Edits s { s with tty.ttyLine := s.tty.ttyLine ++ [byte] }
        (⟨s.tty.ttyLine ++ [byte], s.tty.ttyLineTruncated⟩, []) :=
      ⟨rfl, (List.append_nil _).symm, rfl, rfl, rfl⟩
    exact hjoined.emit_if (q := fun echo => echo) _

/-- A data byte. -/
theorem editLine_data {byte : UInt8} (hdata : DataByte byte) (echo : Bool) (l : LineState) :
    editLine echo l byte =
      if l.line.length + 1 ≥ ttyLineBufferSize then
        (⟨l.line, true⟩, if !l.truncated && echo then [.consolePutc 0x07] else [])
      else
        (⟨l.line ++ [byte], l.truncated⟩, if echo then [.consolePutc byte] else []) := by
  have herase : ¬(byte = 0x08 ∨ byte = 0x7F) :=
    not_or.mpr ⟨hdata.ne (by decide), hdata.ne (by decide)⟩
  rw [editLine, if_neg (hdata.ne (by decide)), if_neg (hdata.ne (by decide)), if_neg herase,
    if_neg (hdata.ne (by decide)), if_neg (hdata.ne (by decide)), hdata.isPrintable]
  rfl

/-- **A byte that passes the filter edits the line.** The model of the editor is a function of the
line and of whether there is an echo, and gives the new line, the calls and what is delivered. -/
theorem ttyReceive_edits {s : Sys} (hs : Editing s) {byte : UInt8} (hb : byte ≠ 0x1B) :
    Edits s (ttyReceive s byte) (editLine s.tty.ttyEcho s.lineState byte) := by
  obtain ⟨hfilter, hreceive⟩ := ttyReceive_editing hs hb
  set u : Sys := { s with tty.ttyRxCount := s.tty.ttyRxCount + 1 }
  suffices h : Edits u (ttyHandleCanonical u byte) (editLine u.tty.ttyEcho u.lineState byte) by
    rw [hreceive]
    exact ⟨h.state, h.calls, h.echo, h.canonical, h.escape⟩
  rw [ttyHandleCanonical, hfilter, editLine]
  dsimp only
  rw [if_neg Bool.false_ne_true]
  refine .ite (fun _ => ?_) fun _ => ?_
  · have hcut : Edits u { u with tty.ttyLine := [] } (⟨[], u.tty.ttyLineTruncated⟩, []) :=
      ⟨rfl, (List.append_nil _).symm, rfl, rfl, rfl⟩
    have hread := ttyEnqueueRead_edits { u with tty.ttyLine := [] } byte
    exact (hcut.andThen hread).emit_if (q := fun echo => echo) _
  refine .ite (fun _ => ttyEnqueueRead_edits u byte) fun _ => ?_
  refine .ite (fun _ => ?_) fun _ => ?_
  · have herased : Edits u { u with tty.ttyLine := u.tty.ttyLine.dropLast }
        (⟨u.tty.ttyLine.dropLast, u.tty.ttyLineTruncated⟩, []) :=
      ⟨rfl, (List.append_nil _).symm, rfl, rfl, rfl⟩
    exact .ite (fun _ => herased.emit_if (q := fun echo => echo) _) fun _ => .same u
  refine .ite (fun _ => ttyHandleNewline_edits u) fun _ => ?_
  refine .ite (fun _ => ?_) fun _ => ?_
  · split
    · rename_i hnone
      have hread := ttyEnqueueRead_edits u byte
      rw [Sys.lineState, List.eq_nil_of_length_eq_zero hnone] at hread
      exact hread
    · exact ttyFlushLineBuffer_edits u
  exact .ite (fun _ => .same u) fun _ => ttyHandleData_edits u byte

/-- A data byte joins the line. -/
theorem ttyReceive_room {s : Sys} (hs : Editing s) {byte : UInt8} (hdata : DataByte byte)
    (hroom : s.tty.ttyLine.length + 1 < ttyLineBufferSize) :
    Edits s (ttyReceive s byte)
      (⟨s.tty.ttyLine ++ [byte], s.tty.ttyLineTruncated⟩,
        if s.tty.ttyEcho then [.consolePutc byte] else []) := by
  have h := ttyReceive_edits hs (hdata.ne (by decide))
  have hnotFull : ¬(s.lineState.line.length + 1 ≥ ttyLineBufferSize) := Nat.not_le.mpr hroom
  rwa [editLine_data hdata, if_neg hnotFull] at h

/-- A data byte that finds no room. -/
theorem ttyReceive_full {s : Sys} (hs : Editing s) {byte : UInt8} (hdata : DataByte byte)
    (hfull : ttyLineBufferSize ≤ s.tty.ttyLine.length + 1) :
    Edits s (ttyReceive s byte)
      (⟨s.tty.ttyLine, true⟩,
        if !s.tty.ttyLineTruncated && s.tty.ttyEcho then [.consolePutc 0x07] else []) := by
  have h := ttyReceive_edits hs (hdata.ne (by decide))
  have hfull' : s.lineState.line.length + 1 ≥ ttyLineBufferSize := hfull
  rwa [editLine_data hdata, if_pos hfull'] at h

/-- A byte of an escape sequence. -/
theorem ttyReceive_filtered {s : Sys} (hcanon : s.tty.ttyCanonical = true) {byte : UInt8}
    (h : (escapeStep s.tty.ttyEscapeState byte).2 = true) :
    (ttyReceive s byte).lineState = s.lineState ∧ (ttyReceive s byte).calls = s.calls := by
  rw [ttyReceive_discards hcanon h]
  exact ⟨rfl, rfl⟩

/-- A byte in noncanonical mode. -/
theorem ttyReceive_raw {s : Sys} (hraw : s.tty.ttyCanonical = false) (byte : UInt8) :
    Edits s (ttyReceive s byte)
      (s.lineState, if s.tty.ttyEcho then [.consolePutc byte] else []) := by
  have hmode : ¬(s.tty.ttyCanonical = true) := by
    rw [hraw]
    exact Bool.false_ne_true
  have hcount : Edits s { s with tty.ttyRxCount := s.tty.ttyRxCount + 1 } (s.lineState, []) :=
    ⟨rfl, (List.append_nil _).symm, rfl, rfl, rfl⟩
  have hread := ttyEnqueueRead_edits { s with tty.ttyRxCount := s.tty.ttyRxCount + 1 } byte
  rw [ttyReceive, if_neg hmode, ttyHandleNoncanonical]
  exact (hcount.andThen hread).emit_if (q := fun echo => echo) _

end WaluOs
