import Mathlib.Data.Bool.AllAny
import WaluOs.ConsoleUtf8

/-!
# Control sequences

Between ESC `[` and the final byte `console_putc` reads parameters, and draws nothing
(`consolePutcs_params`). Digits and `;` are all it knows: any other byte in front of the final
one ends the sequence, and what is left of it is text (`readsWhole_iff`). The parameters come
out by position, except that empty fields at the beginning are dropped (`csiCall_params`).

The invariant is the list of parameters at the beginning of a field (`AtField`). A field and the
byte behind it lead to the beginning of the next one (`AtField.push`), and the fields of a
sequence are an induction with that step.
-/

namespace WaluOs

open Loops

/-! ## Nothing is drawn -/

variable {c : Console}

/-- A branch between two that show nothing. -/
theorem shown_ite {p : Prop} [Decidable p] {t u : Console} (ht : t.shown = c.shown)
    (hu : u.shown = c.shown) : (if p then t else u).shown = c.shown := by
  split
  · exact ht
  · exact hu

theorem clearLineRange_shown (c : Console) (row colStart colEnd : ℕ) :
    (clearLineRange c row colStart colEnd).shown = c.shown :=
  shown_ite rfl (shown_ite rfl
    (forRange_shown (fun t x => backendPutCell_shown t row x 0x20 _) c.toDisplay))

theorem clearRows_shown (first last : ℕ) (c : Console) :
    (forRange first last (fun c y => clearLineRange c y 0 (c.termCols - 1)) c).shown =
      c.shown := by
  let Same (t : Console) : Prop := t.shown = c.shown
  have hstart : Same c := rfl
  exact forRange_invariant hstart fun y t _ _ ht =>
    (clearLineRange_shown t y 0 (t.termCols - 1)).trans ht

theorem backendClearAll_shown (d : Display) (color : UInt8) :
    (backendClearAll d color).shown = d.shown := by
  rw [backendClearAll]
  split
  · exact forRange_shown (fun t y => forRange_shown (fun u x => vgaStore_shown u _ _) t) d
  · rw [fbRedrawFull_shown]
    exact forRange_shown (fun t y => forRange_shown (fun u x =>
      (fbStoreColor_shown _ _ _ _).trans (fbStoreCell_shown u y x 0x20)) t) d

theorem ansiEraseDisplay_shown (c : Console) : (ansiEraseDisplay c).shown = c.shown := by
  rw [ansiEraseDisplay]
  refine shown_ite (backendClearAll_shown c.toDisplay _) (shown_ite ?_ (shown_ite ?_ rfl))
  · exact (clearRows_shown _ _ _).trans (clearLineRange_shown _ _ _ _)
  · exact (clearLineRange_shown _ _ _ _).trans (clearRows_shown _ _ _)

theorem ansiEraseLine_shown (c : Console) : (ansiEraseLine c).shown = c.shown :=
  shown_ite (clearLineRange_shown _ _ _ _)
    (shown_ite (clearLineRange_shown _ _ _ _) (shown_ite (clearLineRange_shown _ _ _ _) rfl))

/-- A control sequence erases at most. -/
theorem ansiExecuteCsi_shown (c : Console) (final : UInt8) :
    (ansiExecuteCsi c final).shown = c.shown := by
  have hsgr : (if c.ansiParams = [] then c.update fun t => ansiSgrApply t 0
      else c.update fun t => t.ansiParams.foldl ansiSgrApply t).shown = c.shown :=
    shown_ite rfl rfl
  rw [ansiExecuteCsi]
  refine shown_ite hsgr (shown_ite rfl ?_)
  refine shown_ite rfl (shown_ite rfl (shown_ite rfl (shown_ite rfl ?_)))
  refine shown_ite (ansiEraseDisplay_shown c) (shown_ite (ansiEraseLine_shown c) ?_)
  exact shown_ite rfl (shown_ite rfl rfl)

/-! ## Parameters -/

/-- `'0'..'9'` -/
def IsDigit (byte : UInt8) : Prop := 0x30 ≤ byte ∧ byte ≤ 0x39

/-- A digit or `;`. These are all that the console collects between ESC `[` and the final byte. -/
def IsParam (byte : UInt8) : Prop := IsDigit byte ∨ byte = 0x3B

/-- A byte that ends a control sequence and says what it does. -/
def IsFinal (byte : UInt8) : Prop := 0x40 ≤ byte ∧ byte ≤ 0x7E

instance : DecidablePred IsDigit := fun _ => inferInstanceAs (Decidable (_ ∧ _))

instance : DecidablePred IsParam := fun _ => inferInstanceAs (Decidable (_ ∨ _))

instance : DecidablePred IsFinal := fun _ => inferInstanceAs (Decidable (_ ∧ _))

/-- What a digit or `;` does to the parameters. -/
def csiParam (t : Term) (byte : UInt8) : Term :=
  if IsDigit byte then
    { t with
      ansiParamCurrent := int32 (t.ansiParamCurrent * 10 + (byte - 0x30).toNat)
      ansiParamActive := true }
  else
    ansiPushCurrentParam t

theorem ansiPushCurrentParam_state (t : Term) :
    (ansiPushCurrentParam t).ansiParserState = t.ansiParserState := by
  rw [ansiPushCurrentParam]
  dsimp only
  split
  · rfl
  · split <;> rfl

theorem csiParam_state (t : Term) (byte : UInt8) :
    (csiParam t byte).ansiParserState = t.ansiParserState := by
  rw [csiParam]
  split
  · rfl
  · exact ansiPushCurrentParam_state t

/-- In a control sequence, too, only a newline is sent twice. -/
theorem consolePutc_csi (hcsi : c.ansiParserState = .csi) {byte : UInt8} (hbyte : byte ≠ 0x0A) :
    consolePutc c byte = consoleHandleCsiByte (serialWriteChar c byte) byte := by
  rw [consolePutc, if_neg hbyte]
  rw [serialWriteChar_toTerm, hcsi]

theorem consolePutc_param (hcsi : c.ansiParserState = .csi) {byte : UInt8} (hbyte : IsParam byte) :
    consolePutc c byte = (serialWriteChar c byte).update fun t => csiParam t byte := by
  have hnewline : byte ≠ 0x0A := by
    rintro rfl
    exact absurd hbyte (by decide)
  rw [consolePutc_csi hcsi hnewline, consoleHandleCsiByte]
  by_cases hdigit : IsDigit byte
  · have hrange : 0x30 ≤ byte ∧ byte ≤ 0x39 := hdigit
    simp only [csiParam, if_pos hdigit, if_pos hrange]
  · have hrange : ¬(0x30 ≤ byte ∧ byte ≤ 0x39) := hdigit
    simp only [csiParam, if_neg hdigit, if_neg hrange, if_pos (hbyte.resolve_left hdigit)]

/-- The parameters are read without drawing. -/
theorem consolePutcs_params (params : List UInt8) :
    ∀ {c : Console}, c.ansiParserState = .csi → (∀ b ∈ params, IsParam b) →
      (params.foldl consolePutc c).toDisplay = c.toDisplay ∧
        (params.foldl consolePutc c).toTerm = params.foldl csiParam c.toTerm ∧
          (params.foldl consolePutc c).ansiParserState = .csi := by
  induction params with
  | nil => exact fun hcsi _ => ⟨rfl, rfl, hcsi⟩
  | cons b params ih =>
    intro c hcsi hparams
    obtain ⟨hb, hparams⟩ := List.forall_mem_cons.mp hparams
    have hstep := consolePutc_param hcsi hb
    have hterm : (consolePutc c b).toTerm = csiParam c.toTerm b := by
      rw [hstep]
      exact congrArg (fun t => csiParam t b) (serialWriteChar_toTerm c b)
    have hdisplay : (consolePutc c b).toDisplay = c.toDisplay := by
      rw [hstep]
      exact serialWriteChar_toDisplay c b
    have hnext : (consolePutc c b).ansiParserState = .csi := by
      rw [hterm, csiParam_state, hcsi]
    obtain ⟨hdisplays, hterms, hstate⟩ := ih hnext hparams
    refine ⟨hdisplays.trans hdisplay, ?_, hstate⟩
    rw [List.foldl_cons, hterms, hterm]
    rfl

/-- ESC `[` begins a control sequence. -/
theorem consolePutcs_introducer (hground : c.ansiParserState = .ground) :
    (consolePutc c 0x1B).ansiParserState = .esc ∧
      ([0x1B, 0x5B].foldl consolePutc c).toDisplay = c.toDisplay ∧
        ([0x1B, 0x5B].foldl consolePutc c).toTerm =
          ansiResetParams { c.toTerm with ansiParserState := .csi } := by
  have hesc : consolePutc c 0x1B =
      (serialWriteChar c 0x1B).update fun t => { t with ansiParserState := .esc } :=
    consolePutc_ground hground (by decide)
  have hcsi : consolePutc (consolePutc c 0x1B) 0x5B =
      (serialWriteChar (consolePutc c 0x1B) 0x5B).update fun t =>
        ansiResetParams { t with ansiParserState := .csi } := by
    rw [consolePutc, if_neg (by decide)]
    rw [serialWriteChar_toTerm, hesc]
    rfl
  refine ⟨by rw [hesc]; rfl, ?_, ?_⟩
  · rw [List.foldl_cons, List.foldl_cons, List.foldl_nil, hcsi]
    refine (serialWriteChar_toDisplay _ _).trans ?_
    rw [hesc]
    exact serialWriteChar_toDisplay c 0x1B
  · rw [List.foldl_cons, List.foldl_cons, List.foldl_nil, hcsi]
    show ansiResetParams { (serialWriteChar (consolePutc c 0x1B) 0x5B).toTerm with
      ansiParserState := .csi } = _
    rw [serialWriteChar_toTerm, hesc]
    show ansiResetParams { (serialWriteChar c 0x1B).toTerm with ansiParserState := .csi } = _
    rw [serialWriteChar_toTerm]

/-- What `ansi_execute_csi` is called on at the final byte: the last parameter has been pushed,
and nothing executed. -/
def csiCall (c : Console) (final : UInt8) : Console :=
  (serialWriteChar c final).update ansiPushCurrentParam

/-- The final byte executes the sequence. -/
theorem consolePutc_final (hcsi : c.ansiParserState = .csi) {final : UInt8}
    (hfinal : IsFinal final) :
    consolePutc c final = (ansiExecuteCsi (csiCall c final) final).update fun t =>
      ansiResetParams { t with ansiParserState := .ground } := by
  have hnewline : final ≠ 0x0A := by
    rintro rfl
    exact absurd hfinal (by decide)
  have hdigit : ¬(0x30 ≤ final ∧ final ≤ 0x39) := fun h =>
    absurd (UInt8.le_trans hfinal.1 h.2) (by decide)
  have hsemicolon : final ≠ 0x3B := by
    rintro rfl
    exact absurd hfinal (by decide)
  have hrange : 0x40 ≤ final ∧ final ≤ 0x7E := hfinal
  rw [consolePutc_csi hcsi hnewline, consoleHandleCsiByte, if_neg hdigit, if_neg hsemicolon,
    if_pos hrange]
  rfl

/-- Any other byte ends the sequence where it stands. -/
theorem consolePutc_abort (hcsi : c.ansiParserState = .csi) {byte : UInt8} (hbyte : byte ≠ 0x0A)
    (hparam : ¬IsParam byte) (hfinal : ¬IsFinal byte) :
    consolePutc c byte =
      (serialWriteChar c byte).update fun t => { t with ansiParserState := .ground } := by
  have hdigit : ¬(0x30 ≤ byte ∧ byte ≤ 0x39) := fun h => hparam (.inl h)
  have hsemicolon : byte ≠ 0x3B := fun h => hparam (.inr h)
  have hrange : ¬(0x40 ≤ byte ∧ byte ≤ 0x7E) := hfinal
  rw [consolePutc_csi hcsi hbyte, consoleHandleCsiByte, if_neg hdigit, if_neg hsemicolon,
    if_neg hrange]

/-! ## Whole sequences -/

/-- A control sequence: parameter bytes, intermediate bytes and a final byte, in the ranges that
terminals agree on. The console knows a part of these. -/
structure ControlSequence : Type where
  /-- the parameter bytes -/
  params : List UInt8
  /-- the intermediate bytes -/
  intermediates : List UInt8
  /-- the final byte -/
  final : UInt8
  params_range : ∀ b ∈ params, 0x30 ≤ b ∧ b ≤ 0x3F
  intermediates_range : ∀ b ∈ intermediates, 0x20 ≤ b ∧ b ≤ 0x2F
  final_range : IsFinal final

/-- Behind ESC `[` and in front of the final byte. -/
def ControlSequence.body (q : ControlSequence) : List UInt8 := q.params ++ q.intermediates

/-- What is written to the console, from ESC to the final byte. -/
def ControlSequence.bytes (q : ControlSequence) : List UInt8 :=
  [0x1B, 0x5B] ++ (q.body ++ [q.final])

/-- The sequence is read as one: the parser is back in the ground state behind its final byte
and not before, and nothing is drawn. -/
structure ReadsWhole (c : Console) (q : ControlSequence) : Prop where
  ends : (q.bytes.foldl consolePutc c).ansiParserState = .ground
  between : ∀ p, p ≠ [] → p <+: q.bytes → p ≠ q.bytes →
    (p.foldl consolePutc c).ansiParserState ≠ .ground
  drawn : (q.bytes.foldl consolePutc c).shown = c.shown

/-- Where the parser does not leave a sequence early, its bytes are parameters. -/
theorem params_of_between (body : List UInt8) :
    ∀ {c : Console}, c.ansiParserState = .csi → (∀ b ∈ body, 0x20 ≤ b ∧ b ≤ 0x3F) →
      (∀ p, p ≠ [] → p <+: body → (p.foldl consolePutc c).ansiParserState ≠ .ground) →
        ∀ b ∈ body, IsParam b := by
  induction body with
  | nil => exact fun _ _ _ b hb => absurd hb List.not_mem_nil
  | cons b body ih =>
    intro c hcsi hrange hbetween
    obtain ⟨hb, hrange⟩ := List.forall_mem_cons.mp hrange
    have hparam : IsParam b := by
      by_contra hparam
      have hnewline : b ≠ 0x0A := by
        rintro rfl
        exact absurd hb (by decide)
      have hfinal : ¬IsFinal b := fun h => absurd (UInt8.le_trans h.1 hb.2) (by decide)
      refine hbetween [b] (List.cons_ne_nil _ _) ⟨body, rfl⟩ ?_
      exact congrArg (fun c => c.ansiParserState) (consolePutc_abort hcsi hnewline hparam hfinal)
    have hnext : (consolePutc c b).ansiParserState = .csi :=
      (consolePutcs_params [b] hcsi (List.forall_mem_singleton.mpr hparam)).2.2
    refine List.forall_mem_cons.mpr ⟨hparam, ih hnext hrange fun p hp hbefore => ?_⟩
    exact hbetween (b :: p) (List.cons_ne_nil _ _) (List.cons_prefix_cons.mpr ⟨rfl, hbefore⟩)

/-- The state behind ESC `[`. -/
theorem introducer_csi (hground : c.ansiParserState = .ground) :
    ([0x1B, 0x5B].foldl consolePutc c).ansiParserState = .csi := by
  rw [(consolePutcs_introducer hground).2.2]
  rfl

/-- Parameters and a final byte are read as one. -/
theorem readsWhole_of_params (hground : c.ansiParserState = .ground) {q : ControlSequence}
    (hbody : ∀ b ∈ q.body, IsParam b) : ReadsWhole c q := by
  obtain ⟨hesc, hdisplay, -⟩ := consolePutcs_introducer hground
  have hcsi := introducer_csi hground
  obtain ⟨hdisplays, -, hstate⟩ := consolePutcs_params q.body hcsi hbody
  have hwhole : q.bytes.foldl consolePutc c =
      consolePutc (q.body.foldl consolePutc ([0x1B, 0x5B].foldl consolePutc c)) q.final := by
    rw [ControlSequence.bytes, List.foldl_append, List.foldl_append, List.foldl_cons,
      List.foldl_nil]
  have hfinal := consolePutc_final hstate q.final_range
  refine ⟨?_, fun p hp hbefore hne => ?_, ?_⟩
  · rw [hwhole, hfinal]
    rfl
  · -- ESC, or ESC `[` and a front part of the parameters
    rcases List.prefix_cons_iff.mp hbefore with rfl | ⟨p', rfl, hbehind⟩
    · exact absurd rfl hp
    rcases List.prefix_cons_iff.mp hbehind with rfl | ⟨front, rfl, hfront⟩
    · intro h
      exact absurd (hesc.symm.trans h) (by decide)
    rcases List.prefix_concat_iff.mp hfront with rfl | hfront
    · exact absurd rfl hne
    · have hfront := consolePutcs_params front hcsi fun b hb => hbody b (hfront.subset hb)
      intro h
      exact absurd (hfront.2.2.symm.trans h) (by decide)
  · rw [hwhole, hfinal]
    refine (ansiExecuteCsi_shown _ _).trans ?_
    show (serialWriteChar _ _).toDisplay.shown = _
    rw [serialWriteChar_toDisplay, hdisplays, hdisplay]

/-- **A control sequence is read as one exactly when it has only digits and `;`** in front of its
final byte. At any other byte the parser gives up, and what is left of the sequence is drawn. -/
theorem readsWhole_iff (c : Console) (hground : c.ansiParserState = .ground)
    (q : ControlSequence) :
    ReadsWhole c q ↔ (∀ b ∈ q.params, IsParam b) ∧ q.intermediates = [] := by
  constructor
  · intro h
    have hrange : ∀ b ∈ q.body, 0x20 ≤ b ∧ b ≤ 0x3F := by
      intro b hb
      rcases List.mem_append.mp hb with hb | hb
      · exact ⟨UInt8.le_trans (by decide) (q.params_range b hb).1, (q.params_range b hb).2⟩
      · have := q.intermediates_range b hb
        exact ⟨this.1, UInt8.le_trans this.2 (by decide)⟩
    have hbody := params_of_between q.body (introducer_csi hground) hrange fun p hp hbefore => by
      have hfront : [0x1B, 0x5B] ++ p <+: q.bytes :=
        List.prefix_append_right_inj _ |>.mpr (hbefore.trans (List.prefix_append _ _))
      have hshort : [0x1B, 0x5B] ++ p ≠ q.bytes := by
        intro heq
        have hlength := congrArg List.length (List.append_cancel_left heq)
        have := hbefore.length_le
        rw [List.length_append, List.length_singleton] at hlength
        omega
      have hstate := h.between ([0x1B, 0x5B] ++ p) (List.cons_ne_nil _ _) hfront hshort
      rwa [List.foldl_append] at hstate
    refine ⟨fun b hb => hbody b (List.mem_append_left _ hb), ?_⟩
    refine List.eq_nil_iff_forall_not_mem.mpr fun b hb => ?_
    have hlow := (q.intermediates_range b hb).2
    rcases hbody b (List.mem_append_right _ hb) with h | rfl
    · exact absurd (UInt8.le_trans h.1 hlow) (by decide)
    · exact absurd hlow (by decide)
  · rintro ⟨hparams, hintermediates⟩
    refine readsWhole_of_params hground fun b hb => hparams b ?_
    rwa [ControlSequence.body, hintermediates, List.append_nil] at hb

/-- ESC `[1;31m` -/
def brightRed : ControlSequence :=
  ⟨[0x31, 0x3B, 0x33, 0x31], [], 0x6D, List.all_iff_forall_prop.mp rfl,
    List.all_iff_forall_prop.mp rfl, by decide⟩

theorem readsWhole_iff_brightRed : ReadsWhole (idleConsole vgaText) brightRed :=
  (readsWhole_iff (idleConsole vgaText) rfl brightRed).mpr
    ⟨List.all_iff_forall_prop.mp rfl, rfl⟩

/-- ESC `[?25l` -/
def hideCursor : ControlSequence :=
  ⟨[0x3F, 0x32, 0x35], [], 0x6C, List.all_iff_forall_prop.mp rfl,
    List.all_iff_forall_prop.mp rfl, by decide⟩

/-- It is left at `?`, and the rest is drawn. -/
theorem hideCursor_drawn :
    (idleConsole vgaText).ansiParserState = .ground ∧
      ¬ReadsWhole (idleConsole vgaText) hideCursor ∧
        (hideCursor.bytes.foldl consolePutc (idleConsole vgaText)).shown =
          [.rawPutVisible 0x32, .rawPutVisible 0x35, .rawPutVisible 0x6C] := by
  refine ⟨rfl, fun h => ?_, by decide⟩
  exact h.between [0x1B, 0x5B, 0x3F] (List.cons_ne_nil _ _) ⟨[0x32, 0x35, 0x6C], rfl⟩
    (by decide) rfl

/-! ## Parameters by position -/

/-- One more digit of a number. -/
def addDigit (v : ℕ) (byte : UInt8) : ℕ := v * 10 + (byte - 0x30).toNat

/-- The number that a field stands for; an empty one is 0. It has no upper bound here. -/
def fieldValue (field : List UInt8) : ℕ := field.foldl addDigit 0

/-- A field is empty or a decimal numeral that an `int` can hold. -/
structure IsCsiField (field : List UInt8) : Prop where
  digits : ∀ b ∈ field, IsDigit b
  small : fieldValue field < 2 ^ 31

/-- The fields, with `;` in between, as they stand in a sequence. -/
def csiFields (fields : List (List UInt8)) : List UInt8 := [0x3B].intercalate fields

/-- No number has been read since the last `;`, and `params` have been pushed before. -/
structure AtField (t : Term) (params : List ℤ) : Prop where
  params : t.ansiParams = params
  current : t.ansiParamCurrent = 0
  active : t.ansiParamActive = false

theorem le_foldl_addDigit (digits : List UInt8) (v : ℕ) : v ≤ digits.foldl addDigit v := by
  induction digits generalizing v with
  | nil => exact Nat.le_refl v
  | cons b digits ih =>
    have hstep : v ≤ addDigit v b := by
      unfold addDigit
      omega
    exact hstep.trans (ih _)

/-- An `int` holds what is less than `2 ^ 31`. -/
theorem int32_of_lt {n : ℕ} (h : n < 2 ^ 31) : int32 n = n := by
  refine Int.bmod_eq_of_le_mul_two ?_ ?_ <;> omega

/-- A numeral is read into the current parameter. -/
theorem csiParams_digits (digits : List UInt8) :
    ∀ {t : Term} {v : ℕ}, t.ansiParamCurrent = v → (∀ b ∈ digits, IsDigit b) →
      digits.foldl addDigit v < 2 ^ 31 →
        digits.foldl csiParam t =
          { t with
            ansiParamCurrent := (digits.foldl addDigit v : ℕ)
            ansiParamActive := t.ansiParamActive || !digits.isEmpty } := by
  induction digits with
  | nil =>
    intro t v hv _ _
    rw [List.foldl_nil, List.foldl_nil, ← hv, List.isEmpty_nil, Bool.not_true, Bool.or_false]
  | cons b digits ih =>
    intro t v hv hdigits hsmall
    obtain ⟨hb, hdigits⟩ := List.forall_mem_cons.mp hdigits
    have hnext : int32 (t.ansiParamCurrent * 10 + (b - 0x30).toNat) = (addDigit v b : ℕ) := by
      have hlt := (le_foldl_addDigit digits (addDigit v b)).trans_lt hsmall
      rw [← int32_of_lt hlt, hv]
      rfl
    rw [List.foldl_cons, csiParam, if_pos hb, hnext, ih rfl hdigits hsmall]
    simp

/-- A parameter that is not an empty one in front of all others is stored. -/
theorem ansiPushCurrentParam_stores {t : Term} (hroom : t.ansiParams.length < ansiMaxParams)
    (h : t.ansiParamActive = true ∨ t.ansiParams ≠ []) :
    AtField (ansiPushCurrentParam t)
      (t.ansiParams ++ [if t.ansiParamActive then t.ansiParamCurrent else 0]) := by
  have hsome : ¬(!t.ansiParamActive ∧ t.ansiParams.length = 0) := by
    rintro ⟨hactive, hnone⟩
    rcases h with h | h
    · rw [h] at hactive
      exact absurd hactive (by decide)
    · exact h (List.eq_nil_of_length_eq_zero hnone)
  rw [ansiPushCurrentParam, if_neg hsome]
  simp only [if_pos hroom]
  exact ⟨rfl, rfl, rfl⟩

/-- A field and the `;` or final byte behind it. The value of the field is appended to the
parameters, but for an empty field in front of all others, of which nothing is kept. -/
theorem AtField.push {t : Term} {params : List ℤ} (h : AtField t params)
    (hroom : params.length < ansiMaxParams) {field : List UInt8} (hfield : IsCsiField field) :
    AtField (ansiPushCurrentParam (field.foldl csiParam t))
      (if field = [] ∧ params = [] then [] else params ++ [(fieldValue field : ℤ)]) := by
  have hread := csiParams_digits field (v := 0) h.current hfield.digits hfield.small
  have hparams : (field.foldl csiParam t).ansiParams = params := by
    rw [hread]
    exact h.params
  have hactive : (field.foldl csiParam t).ansiParamActive = !field.isEmpty := by
    rw [hread]
    show (t.ansiParamActive || !field.isEmpty) = _
    rw [h.active, Bool.false_or]
  have hvalue : (if (field.foldl csiParam t).ansiParamActive then
      (field.foldl csiParam t).ansiParamCurrent else 0) = fieldValue field := by
    rw [hactive, hread]
    cases field <;> rfl
  split
  · rename_i hnone
    obtain ⟨rfl, rfl⟩ := hnone
    rw [ansiPushCurrentParam, if_pos ⟨by rw [hactive]; rfl, by rw [hparams]; rfl⟩]
    exact h
  · rename_i hsome
    have hstores : (field.foldl csiParam t).ansiParamActive = true ∨
        (field.foldl csiParam t).ansiParams ≠ [] := by
      rw [hactive, hparams]
      cases field with
      | nil => exact Or.inr fun hnone => hsome ⟨rfl, hnone⟩
      | cons b digits => exact Or.inl rfl
    have hstored := ansiPushCurrentParam_stores (by rwa [hparams]) hstores
    rwa [hparams, hvalue] at hstored

/-- The values of the fields, the empty ones in front of all others left out. -/
def pushedValues (params : List ℤ) (fields : List (List UInt8)) : List ℤ :=
  if params = [] then (fields.dropWhile List.isEmpty).map fun field => (fieldValue field : ℤ)
  else params ++ fields.map fun field => (fieldValue field : ℤ)

/-- Field by field. -/
theorem pushedValues_cons (params : List ℤ) (field : List UInt8) (fields : List (List UInt8)) :
    pushedValues params (field :: fields) =
      pushedValues (if field = [] ∧ params = [] then [] else params ++ [(fieldValue field : ℤ)])
        fields := by
  cases params with
  | nil =>
    cases field with
    | nil => rfl
    | cons b digits => simp [pushedValues]
  | cons param params => simp [pushedValues]

/-- The parameters behind all fields. The induction is on the fields, and each leaves the parser
at the beginning of the next one. -/
theorem AtField.fields (rest : List (List UInt8)) :
    ∀ {t : Term} {params : List ℤ} {first : List UInt8}, AtField t params →
      params.length + rest.length < ansiMaxParams → (∀ field ∈ first :: rest, IsCsiField field) →
        AtField (ansiPushCurrentParam ((csiFields (first :: rest)).foldl csiParam t))
          (pushedValues params (first :: rest)) := by
  induction rest with
  | nil =>
    intro t params first h hroom hfields
    have hpush := h.push (by simpa using hroom) (hfields first List.mem_cons_self)
    rw [pushedValues_cons]
    have hend : ∀ params, pushedValues params [] = params := by
      intro params
      cases params <;> simp [pushedValues]
    rw [hend, csiFields, List.intercalate_singleton]
    exact hpush
  | cons second rest ih =>
    intro t params first h hroom hfields
    obtain ⟨hfirst, hfields⟩ := List.forall_mem_cons.mp hfields
    have hpush := h.push (by omega) hfirst
    have hsemicolon : (csiFields (first :: second :: rest)).foldl csiParam t =
        (csiFields (second :: rest)).foldl csiParam
          (ansiPushCurrentParam (first.foldl csiParam t)) := by
      rw [csiFields, List.intercalate_cons_cons, List.foldl_append, List.foldl_append]
      rfl
    rw [hsemicolon, pushedValues_cons]
    refine ih hpush ?_ hfields
    split
    · simp at hroom ⊢
      omega
    · simp at hroom ⊢
      omega

/-- The bytes of the fields are parameters. -/
theorem csiFields_isParam {fields : List (List UInt8)} (h : ∀ field ∈ fields, IsCsiField field) :
    ∀ b ∈ csiFields fields, IsParam b := by
  induction fields with
  | nil => exact fun b hb => absurd hb List.not_mem_nil
  | cons first rest ih =>
    obtain ⟨hfirst, hrest⟩ := List.forall_mem_cons.mp h
    have hdigits : ∀ b ∈ first, IsParam b := fun b hb => Or.inl (hfirst.digits b hb)
    cases rest with
    | nil =>
      rw [csiFields, List.intercalate_singleton]
      exact hdigits
    | cons second rest =>
      rw [csiFields, List.intercalate_cons_cons]
      refine List.forall_mem_append.mpr ⟨List.forall_mem_append.mpr ⟨hdigits, ?_⟩, ih hrest⟩
      exact List.forall_mem_singleton.mpr (Or.inr rfl)

/-- What `ansi_execute_csi` finds: the values by position, without the empty fields at the
beginning. -/
theorem csiCall_params (hground : c.ansiParserState = .ground) (first : List UInt8)
    {rest : List (List UInt8)} (hlength : rest.length < ansiMaxParams)
    (hfields : ∀ field ∈ first :: rest, IsCsiField field) (final : UInt8) :
    (csiCall (([0x1B, 0x5B] ++ csiFields (first :: rest)).foldl consolePutc c)
      final).ansiParams =
        ((first :: rest).dropWhile List.isEmpty).map fun field => (fieldValue field : ℤ) := by
  have hcsi := introducer_csi hground
  have hterm := (consolePutcs_params _ hcsi (csiFields_isParam hfields)).2.1
  have hstart : AtField ([0x1B, 0x5B].foldl consolePutc c).toTerm [] := by
    rw [(consolePutcs_introducer hground).2.2]
    exact ⟨rfl, rfl, rfl⟩
  have hread := hstart.fields rest (by simpa using hlength) hfields
  rw [List.foldl_append, csiCall]
  show (ansiPushCurrentParam (serialWriteChar _ final).toTerm).ansiParams = _
  rw [serialWriteChar_toTerm, hterm]
  exact hread.params

/-- **Parameters are decoded by position exactly when the first field is not empty.** Nothing is
pushed for an empty field in front of all others, and those behind it move up. -/
theorem csiParams_iff (c : Console) (hground : c.ansiParserState = .ground) (first : List UInt8)
    (rest : List (List UInt8)) (hlength : rest.length < ansiMaxParams)
    (hfields : ∀ field ∈ first :: rest, IsCsiField field) (final : UInt8) (hfinal : IsFinal final) :
    let before := ([0x1B, 0x5B] ++ csiFields (first :: rest)).foldl consolePutc c
    consolePutc before final =
        ((ansiExecuteCsi (csiCall before final) final).update fun t =>
          ansiResetParams { t with ansiParserState := .ground }) ∧
      ((csiCall before final).ansiParams =
          (first :: rest).map (fun field => (fieldValue field : ℤ)) ↔ first ≠ []) := by
  have hcsi := (consolePutcs_params _ (introducer_csi hground) (csiFields_isParam hfields)).2.2
  rw [← List.foldl_append] at hcsi
  refine ⟨consolePutc_final hcsi hfinal, ?_⟩
  rw [csiCall_params hground first hlength hfields]
  constructor
  · rintro hvalues rfl
    -- one value is missing
    have hlengths := congrArg List.length hvalues
    have hfewer := (List.dropWhile_sublist List.isEmpty (l := rest)).length_le
    simp at hlengths
    omega
  · intro hfirst
    rw [List.dropWhile_cons_of_neg (by simpa using hfirst)]

theorem csiParams_iff_home :
    (csiCall ([0x1B, 0x5B, 0x31, 0x3B, 0x3B, 0x37].foldl consolePutc (idleConsole vgaText))
      0x48).ansiParams = [1, 0, 7] :=
  have hone : IsCsiField [0x31] := ⟨List.all_iff_forall_prop.mp rfl, by decide⟩
  have hempty : IsCsiField [] := ⟨List.all_iff_forall_prop.mp rfl, by decide⟩
  have hseven : IsCsiField [0x37] := ⟨List.all_iff_forall_prop.mp rfl, by decide⟩
  have hfields : ∀ field ∈ [[0x31], [], [0x37]], IsCsiField field :=
    List.forall_mem_cons.mpr
      ⟨hone, List.forall_mem_cons.mpr ⟨hempty, List.forall_mem_singleton.mpr hseven⟩⟩
  (csiParams_iff (idleConsole vgaText) rfl [0x31] [[], [0x37]] (by decide) hfields
    0x48 (by decide)).2.mpr (List.cons_ne_nil _ _)

/-- ESC `[;5H` is read as ESC `[5H`. -/
theorem emptyRow_dropped :
    (idleConsole vgaText).ansiParserState = .ground ∧ IsCsiField [] ∧ IsCsiField [0x35] ∧
      [0x1B, 0x5B] ++ csiFields [[], [0x35]] = [0x1B, 0x5B, 0x3B, 0x35] ∧
        (csiCall ([0x1B, 0x5B, 0x3B, 0x35].foldl consolePutc (idleConsole vgaText))
          0x48).ansiParams = [5] ∧
          [[], [0x35]].map (fun field => (fieldValue field : ℤ)) = [0, 5] :=
  ⟨rfl, ⟨List.all_iff_forall_prop.mp rfl, by decide⟩, ⟨List.all_iff_forall_prop.mp rfl, by decide⟩, rfl, rfl,
    rfl⟩

end WaluOs
