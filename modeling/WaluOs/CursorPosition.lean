import WaluOs.EscapeRestarts

/-!
# Cursor positions

ESC `[` p `;` q `H` counts rows and columns from 1. `ansi_execute_csi` subtracts the 1 in an `int`
and converts the difference to `size_t` before it clamps, so 0 becomes the largest position there
is, and not the first: the commands that move the cursor by a number take 0 as 1
(`cursorPosition_iff`).
-/

namespace WaluOs

variable {c : Console}

/-- A row or column as `ansi_execute_csi` computes it from a parameter. -/
def clampedPosition (size p : ℕ) : ℕ :=
  let position := toSizeT (int32 (p - 1))
  if size ≤ position then size - 1 else position

/-- It is the one meant, but for 0. -/
theorem clampedPosition_iff {size p : ℕ} (hsize : 0 < size) (hp : p < 2 ^ 31) :
    clampedPosition size p = min (max p 1) size - 1 ↔ p ≠ 0 ∨ size = 1 := by
  rw [clampedPosition]
  rcases Nat.eq_zero_or_pos p with rfl | hpos
  · have hwrap : toSizeT (int32 ((0 : ℕ) - 1)) = 2 ^ 64 - 1 := by decide
    rw [hwrap]
    split <;> omega
  · have hpred : ((p : ℤ) - 1) = (p - 1 : ℕ) := by omega
    have hposition : toSizeT (int32 ((p : ℤ) - 1)) = p - 1 := by
      rw [hpred, int32_of_lt (by omega), toSizeT]
      omega
    rw [hposition]
    split <;> omega

/-! ## The sequence -/

/-- ESC `[` p `;` q and the final byte. `p` and `q` are fields as they are written, so that empty
ones and leading zeros are in it. -/
def cursorSequence (p q : List UInt8) (final : UInt8) : List UInt8 :=
  [0x1B, 0x5B] ++ csiFields [p, q] ++ [final]

/-- What the sequence is to do: `c'` is `c` with the cursor there. Besides, the parser has worked,
and the bytes were mirrored to the serial port. Rows and columns are counted from 1, a missing one
is 1, and what lies beyond the edge is moved to it. -/
structure PositionsCursor (c : Console) (p q : List UInt8) (final : UInt8) (c' : Console) :
    Prop where
  row : c'.cursorRow = min (max (fieldValue p) 1) c.termRows - 1
  col : c'.cursorCol = min (max (fieldValue q) 1) c.termCols - 1
  elsewhere : c' = ((cursorSequence p q final).foldl serialWriteChar c).update fun t =>
    { t with
      cursorRow := c'.cursorRow
      cursorCol := c'.cursorCol
      ansiParserState := c'.ansiParserState
      ansiParams := c'.ansiParams
      ansiParamCurrent := c'.ansiParamCurrent
      ansiParamActive := c'.ansiParamActive }

/-- Bytes that have changed the terminal only. -/
def UpdatesTerm (c : Console) (bytes : List UInt8) (c' : Console) : Prop :=
  c' = (bytes.foldl serialWriteChar c).update fun _ => c'.toTerm

theorem UpdatesTerm.step {bytes : List UInt8} {c' : Console} (h : UpdatesTerm c bytes c')
    {byte : UInt8} {f : Term → Term} {c'' : Console}
    (hput : c'' = (serialWriteChar c' byte).update f) : UpdatesTerm c (bytes ++ [byte]) c'' := by
  have hserial : ∀ (u : Console) (g : Term → Term),
      serialWriteChar (u.update g) byte = (serialWriteChar u byte).update g := by
    intro u g
    rw [serialWriteChar, serialWriteChar]
    show (if u.serialInitialized then _ else _) = _
    split <;> rfl
  rw [UpdatesTerm, hput, h, hserial, List.foldl_append]
  rfl

/-- The bytes up to the final one. -/
theorem updatesTerm_params (hground : c.ansiParserState = .ground) (params : List UInt8)
    (hparams : ∀ b ∈ params, IsParam b) :
    UpdatesTerm c ([0x1B, 0x5B] ++ params) (([0x1B, 0x5B] ++ params).foldl consolePutc c) := by
  induction params using List.reverseRecOn with
  | nil =>
    have hesc : consolePutc c 0x1B =
        (serialWriteChar c 0x1B).update fun t => { t with ansiParserState := .esc } :=
      consolePutc_ground hground (by decide)
    have hbracket : consolePutc (consolePutc c 0x1B) 0x5B =
        (serialWriteChar (consolePutc c 0x1B) 0x5B).update fun t =>
          ansiResetParams { t with ansiParserState := .csi } := by
      have hstate : ((consolePutc c 0x1B).sent 0x5B).ansiParserState = .esc := by
        rw [(sent_agree _ _).term]
        exact (consolePutcs_introducer hground).1
      exact consolePutc_sent_esc hstate
    have hstart : UpdatesTerm c [] c := rfl
    exact (hstart.step hesc).step hbracket
  | append_singleton params b ih =>
    obtain ⟨hparams, hb⟩ := List.forall_mem_append.mp hparams
    have hstate := (consolePutcs_params params (introducer_csi hground) hparams).2.2
    rw [← List.foldl_append] at hstate
    have hput := consolePutc_param hstate (List.forall_mem_singleton.mp hb)
    rw [← List.append_assoc, List.foldl_append]
    exact (ih hparams).step hput

theorem serialWriteChars_toTerm (bytes : List UInt8) (c : Console) :
    (bytes.foldl serialWriteChar c).toTerm = c.toTerm := by
  induction bytes generalizing c with
  | nil => rfl
  | cons b bytes ih => exact (ih _).trans (serialWriteChar_toTerm c b)

/-- What the branch does. -/
theorem ansiCursorPosition_eq {p q : ℕ} (hparams : c.ansiParams = [(p : ℤ), (q : ℤ)]) :
    ansiCursorPosition c = c.update fun t =>
      { t with
        cursorRow := clampedPosition c.termRows p
        cursorCol := clampedPosition c.termCols q } := by
  rw [ansiCursorPosition, ansiParamAt, ansiParamAt, hparams]
  rfl

/-- The final byte, behind the parameters. It pushes the second one, moves the cursor to what the
two come to when they are clamped, and resets the parser. -/
theorem cursorSequence_final (hground : c.ansiParserState = .ground) {p q : List UInt8}
    (hp : p ≠ []) (hfields : ∀ field ∈ [p, q], IsCsiField field) {final : UInt8}
    (hfinal : final = 0x48 ∨ final = 0x66) :
    (cursorSequence p q final).foldl consolePutc c =
      (serialWriteChar (([0x1B, 0x5B] ++ csiFields [p, q]).foldl consolePutc c) final).update
        fun t => ansiResetParams { ansiPushCurrentParam t with
          cursorRow := clampedPosition c.termRows (fieldValue p)
          cursorCol := clampedPosition c.termCols (fieldValue q)
          ansiParserState := .ground } := by
  have hread := consolePutcs_params (csiFields [p, q]) (introducer_csi hground)
    (csiFields_isParam hfields)
  rw [← List.foldl_append] at hread
  obtain ⟨hdisplay, -, hstate⟩ := hread
  let u := ([0x1B, 0x5B] ++ csiFields [p, q]).foldl consolePutc c
  have hvalues : (csiCall u final).ansiParams = [(fieldValue p : ℤ), (fieldValue q : ℤ)] := by
    have hlength : [q].length < ansiMaxParams := by
      rw [List.length_singleton]
      decide
    rw [csiCall_params hground p hlength hfields, List.dropWhile_cons_of_neg (by simpa using hp)]
    rfl
  have hfinalByte : IsFinal final := by rcases hfinal with rfl | rfl <;> decide
  have hm : final ≠ 0x6D := by rcases hfinal with rfl | rfl <;> decide
  have hgeometry : (csiCall u final).toGeometry = c.toGeometry := by
    show (serialWriteChar u final).toGeometry = _
    rw [serialWriteChar_toDisplay, hdisplay, (consolePutcs_introducer hground).2.1]
  have hexecute : ansiExecuteCsi (csiCall u final) final = (csiCall u final).update fun t =>
      { t with
        cursorRow := clampedPosition c.termRows (fieldValue p)
        cursorCol := clampedPosition c.termCols (fieldValue q) } := by
    rw [ansiExecuteCsi, if_neg hm, if_pos hfinal, ansiCursorPosition_eq hvalues, hgeometry]
  have hsequence : (cursorSequence p q final).foldl consolePutc c = consolePutc u final := by
    show ([0x1B, 0x5B] ++ csiFields [p, q] ++ [final]).foldl consolePutc c = _
    rw [List.foldl_append]
    rfl
  rw [hsequence, consolePutc_final hstate hfinalByte, hexecute]
  rfl

/-- Behind the whole sequence. -/
theorem cursorSequence_puts (hground : c.ansiParserState = .ground) {p q : List UInt8}
    (hp : p ≠ []) (hpField : IsCsiField p) (hqField : IsCsiField q) {final : UInt8}
    (hfinal : final = 0x48 ∨ final = 0x66) :
    let c' := (cursorSequence p q final).foldl consolePutc c
    UpdatesTerm c (cursorSequence p q final) c' ∧
      c'.toTerm = ansiResetParams { c.toTerm with
        cursorRow := clampedPosition c.termRows (fieldValue p)
        cursorCol := clampedPosition c.termCols (fieldValue q) } := by
  intro c'
  have hfields : ∀ field ∈ [p, q], IsCsiField field :=
    List.forall_mem_cons.mpr ⟨hpField, List.forall_mem_singleton.mpr hqField⟩
  have hparams := csiFields_isParam hfields
  have hput := cursorSequence_final hground hp hfields hfinal
  let u := ([0x1B, 0x5B] ++ csiFields [p, q]).foldl consolePutc c
  have hread := consolePutcs_params (csiFields [p, q]) (introducer_csi hground) hparams
  rw [← List.foldl_append] at hread
  refine ⟨(updatesTerm_params hground (csiFields [p, q]) hparams).step hput, ?_⟩
  have hreset : ansiResetParams (ansiPushCurrentParam (serialWriteChar u final).toTerm) =
      { ansiResetParams c.toTerm with ansiParserState := .csi } := by
    rw [serialWriteChar_toTerm, reset_push, hread.2.1, reset_csiParams,
      (consolePutcs_introducer hground).2.2]
    rfl
  have hterm : c'.toTerm =
      { ansiResetParams (ansiPushCurrentParam (serialWriteChar u final).toTerm) with
        cursorRow := clampedPosition c.termRows (fieldValue p)
        cursorCol := clampedPosition c.termCols (fieldValue q)
        ansiParserState := .ground } := congrArg Console.toTerm hput
  rw [hterm, hreset, ← hground]
  rfl

/-- **A cursor position is the one meant exactly when no parameter is 0**, or the terminal has
only one row or column to be at. -/
theorem cursorPosition_iff (c : Console) (hground : c.ansiParserState = .ground)
    (hrows : 0 < c.termRows) (hcols : 0 < c.termCols) (p q : List UInt8) (hp : p ≠ [])
    (hpField : IsCsiField p) (hqField : IsCsiField q) (final : UInt8)
    (hfinal : final = 0x48 ∨ final = 0x66) :
    PositionsCursor c p q final ((cursorSequence p q final).foldl consolePutc c) ↔
      (fieldValue p ≠ 0 ∨ c.termRows = 1) ∧ (fieldValue q ≠ 0 ∨ c.termCols = 1) := by
  obtain ⟨hupdates, hterm⟩ := cursorSequence_puts hground hp hpField hqField hfinal
  let c' := (cursorSequence p q final).foldl consolePutc c
  have hrow := clampedPosition_iff hrows hpField.small
  have hcol := clampedPosition_iff hcols hqField.small
  rw [← hrow, ← hcol]
  constructor
  · intro h
    exact ⟨by rw [← h.row, hterm]; rfl, by rw [← h.col, hterm]; rfl⟩
  · rintro ⟨hrow, hcol⟩
    refine ⟨by rw [hterm]; exact hrow, by rw [hterm]; exact hcol, hupdates.trans ?_⟩
    show Console.update _ _ = Console.update _ _
    rw [Console.update, Console.update, serialWriteChars_toTerm, hterm]
    rfl

theorem cursorPosition_iff_home :
    PositionsCursor (idleConsole vgaText) [0x32] [0x39, 0x39] 0x48
      ((cursorSequence [0x32] [0x39, 0x39] 0x48).foldl consolePutc (idleConsole vgaText)) :=
  have htwo : IsCsiField [0x32] := ⟨List.all_iff_forall_prop.mp rfl, by decide⟩
  have hmany : IsCsiField [0x39, 0x39] := ⟨List.all_iff_forall_prop.mp rfl, by decide⟩
  (cursorPosition_iff (idleConsole vgaText) rfl (by decide) (by decide) [0x32] [0x39, 0x39]
    (List.cons_ne_nil _ _) htwo hmany 0x48 (Or.inl rfl)).mpr
    ⟨Or.inl (by decide), Or.inl (by decide)⟩

/-- ESC `[0;5H` goes to the last row. -/
theorem rowZero_last :
    (idleConsole vgaText).ansiParserState = .ground ∧ IsCsiField [0x30] ∧ IsCsiField [0x35] ∧
      cursorSequence [0x30] [0x35] 0x48 = [0x1B, 0x5B, 0x30, 0x3B, 0x35, 0x48] ∧
      ((cursorSequence [0x30] [0x35] 0x48).foldl consolePutc (idleConsole vgaText)).cursorRow = 24 ∧
      min (max (fieldValue [0x30]) 1) vgaText.termRows - 1 = 0 ∧
      ¬PositionsCursor (idleConsole vgaText) [0x30] [0x35] 0x48
        ((cursorSequence [0x30] [0x35] 0x48).foldl consolePutc (idleConsole vgaText)) := by
  refine ⟨rfl, ⟨List.all_iff_forall_prop.mp rfl, by decide⟩,
    ⟨List.all_iff_forall_prop.mp rfl, by decide⟩, rfl, by decide, by decide, fun h => ?_⟩
  exact absurd h.row (by decide)

end WaluOs
