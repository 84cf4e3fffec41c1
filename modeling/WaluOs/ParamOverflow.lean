import Mathlib.Order.Bounds.Basic
import WaluOs.ConsoleDecimal
import WaluOs.ConsoleResync
import WaluOs.EscapeRestarts
import WaluOs.Prefixes

/-!
# The width of a parameter

`console_putc` reads a parameter digit by digit into an `int`, and nothing bounds the digits. The
computation stays in the `int` exactly as long as no run of digits in a control sequence stands
for `2 ^ 31` or more (`params_fit_iff`); where control sequences are is a matter of the bytes
alone (`ansiAfter`).

The invariant: `ansi_param_current` is the greatest number that a run of digits at the end of
what was read stands for (`Accumulates`).
-/

namespace WaluOs

/-! ## Where control sequences are -/

/-- What a byte makes of the state of the parser. -/
def ansiNext : AnsiState → UInt8 → AnsiState
  | .ground, byte => if byte = 0x1B then .esc else .ground
  | .esc, byte => if byte = 0x5B then .csi else if byte = 0x1B then .esc else .ground
  | .csi, byte => if IsParam byte then .csi else .ground

/-- The state behind bytes, from the ground state on. It depends on the bytes only, and not on the
parameters that they have built up. -/
def ansiAfter (bytes : List UInt8) : AnsiState := bytes.foldl ansiNext .ground

variable {c : Console}

theorem consoleEmitUtf8Byte_state (c : Console) (byte : UInt8) :
    (consoleEmitUtf8Byte c byte).ansiParserState = c.ansiParserState := by
  have hemit : ∀ (u : Console) (cp : UInt32),
      (consoleEmitCodepoint u cp).ansiParserState = u.ansiParserState :=
    fun u cp => (consoleEmitCodepoint_sameParser u cp).state
  rw [consoleEmitUtf8Byte]
  split
  · split
    · rfl
    split
    · rfl
    split
    · rfl
    · exact hemit _ _
  split
  · exact hemit _ _
  dsimp only
  split
  · split
    · exact hemit _ _
    · exact hemit _ _
  · rfl

theorem consoleHandleGroundByte_state (c : Console) (byte : UInt8) :
    (consoleHandleGroundByte c byte).ansiParserState =
      if byte = 0x1B then .esc else c.ansiParserState := by
  by_cases hescape : byte = 0x1B
  · rw [if_pos hescape, consoleHandleGroundByte, if_pos hescape]
    rfl
  rw [if_neg hescape]
  by_cases hlow : byte < 0x80
  · exact (consoleHandleGroundByte_sameParser c hlow hescape).state
  · have hne : ∀ b : UInt8, b < 0x80 → byte ≠ b := fun b hb heq => hlow (heq ▸ hb)
    have htext : ¬byte < 0x20 := fun h => hlow (UInt8.lt_trans h (by decide))
    rw [consoleHandleGroundByte, if_neg hescape, if_neg (hne _ (by decide)),
      if_neg (hne _ (by decide)), if_neg (hne _ (by decide)), if_neg (hne _ (by decide)),
      if_neg htext, if_neg hlow]
    exact consoleEmitUtf8Byte_state c byte

theorem consoleHandleCsiByte_state (hcsi : c.ansiParserState = .csi) (byte : UInt8) :
    (consoleHandleCsiByte c byte).ansiParserState = if IsParam byte then .csi else .ground := by
  rw [consoleHandleCsiByte]
  by_cases hdigit : 0x30 ≤ byte ∧ byte ≤ 0x39
  · rw [if_pos hdigit, if_pos (.inl hdigit)]
    exact hcsi
  by_cases hsemicolon : byte = 0x3B
  · rw [if_neg hdigit, if_pos hsemicolon, if_pos (.inr hsemicolon)]
    exact (ansiPushCurrentParam_state c.toTerm).trans hcsi
  · have hparam : ¬IsParam byte := fun h => h.elim hdigit hsemicolon
    rw [if_neg hdigit, if_neg hsemicolon, if_neg hparam]
    split <;> rfl

/-- The console's parser is in the state that the bytes say. -/
theorem consolePutc_state (c : Console) (byte : UInt8) :
    (consolePutc c byte).ansiParserState = ansiNext c.ansiParserState byte := by
  have hsent := congrArg (fun t => t.ansiParserState) (sent_agree c byte).term
  cases hstate : c.ansiParserState with
  | ground =>
    rw [consolePutc_sent_ground (hsent.trans hstate), consoleHandleGroundByte_state, ansiNext]
    rw [hsent.trans hstate]
  | esc =>
    rw [consolePutc_sent_esc (hsent.trans hstate), ansiNext]
    split
    · rfl
    · exact consoleHandleGroundByte_state _ byte
  | csi =>
    rw [consolePutc_sent_csi (hsent.trans hstate)]
    exact consoleHandleCsiByte_state (hsent.trans hstate) byte

theorem consolePutcs_state (hground : c.ansiParserState = .ground) (bytes : List UInt8) :
    (bytes.foldl consolePutc c).ansiParserState = ansiAfter bytes := by
  rw [ansiAfter, ← hground]
  exact (List.foldl_hom (fun c : Console => c.ansiParserState)
    fun c byte => (consolePutc_state c byte).symm).symm

theorem ansiAfter_concat (bytes : List UInt8) (byte : UInt8) :
    ansiAfter (bytes ++ [byte]) = ansiNext (ansiAfter bytes) byte := List.foldl_concat ..

/-- Digits do not end a control sequence. -/
theorem ansiAfter_digits {front : List UInt8} (hfront : ansiAfter front = .csi)
    (digits : List UInt8) (hdigits : ∀ b ∈ digits, IsDigit b) :
    ansiAfter (front ++ digits) = .csi := by
  induction digits using List.reverseRecOn with
  | nil => rwa [List.append_nil]
  | append_singleton digits b ih =>
    obtain ⟨hdigits, hb⟩ := List.forall_mem_append.mp hdigits
    have hparam : IsParam b := Or.inl (List.forall_mem_singleton.mp hb)
    rw [← List.append_assoc, ansiAfter_concat, ih hdigits, ansiNext, if_pos hparam]

/-! ## The computation -/

/-- At a digit of a control sequence the new value of `ansi_param_current` is in the range of
`int`. The model computes with integers that have no bound, so where this fails the code and the
model part: in C the overflow of an `int` is undefined. -/
def DigitFits (c : Console) (byte : UInt8) : Prop :=
  c.ansiParserState = .csi → IsDigit byte →
    0 ≤ c.ansiParamCurrent * 10 + (byte - 0x30).toNat ∧
      c.ansiParamCurrent * 10 + (byte - 0x30).toNat < 2 ^ 31

/-- A run of digits in a control sequence that is open behind `bytes`. It need not be the longest
one, since `front` may end with digits too. -/
structure IsRun (bytes front digits : List UInt8) : Prop where
  split : bytes = front ++ digits
  csi : ansiAfter front = .csi
  digits : ∀ b ∈ digits, IsDigit b

/-- What the runs of digits at the end stand for. -/
def runValues (bytes : List UInt8) : Set ℕ :=
  {v | ∃ front digits, IsRun bytes front digits ∧ v = fieldValue digits}

/-- The parameter that is being read, in a control sequence: the greatest number that a run of
digits at the end stands for. Once a digit has come it is active, so an inactive parameter is 0,
and starting the next one from 0 loses nothing. -/
structure Accumulates (t : Term) (bytes : List UInt8) (n : ℕ) : Prop where
  current : t.ansiParamCurrent = n
  small : n < 2 ^ 31
  greatest : IsGreatest (runValues bytes) n
  inactive : t.ansiParamActive = false → n = 0

/-- The empty run. -/
theorem zero_mem_runValues {bytes : List UInt8} (hcsi : ansiAfter bytes = .csi) :
    0 ∈ runValues bytes :=
  ⟨bytes, [], ⟨(List.append_nil _).symm, hcsi, fun _ hb => absurd hb List.not_mem_nil⟩, rfl⟩

theorem fieldValue_concat (digits : List UInt8) (b : UInt8) :
    fieldValue (digits ++ [b]) = addDigit (fieldValue digits) b := List.foldl_concat ..

/-- Only the empty run ends with another byte. -/
theorem runValues_other {bytes : List UInt8} {byte : UInt8} (hdigit : ¬IsDigit byte)
    (hcsi : ansiAfter (bytes ++ [byte]) = .csi) : IsGreatest (runValues (bytes ++ [byte])) 0 := by
  refine ⟨zero_mem_runValues hcsi, ?_⟩
  rintro v ⟨front, digits, hrun, rfl⟩
  rcases List.eq_nil_or_concat digits with rfl | ⟨digits, b, rfl⟩
  · exact Nat.le_refl 0
  · have hsplit := hrun.split
    rw [List.concat_eq_append, ← List.append_assoc] at hsplit
    obtain ⟨-, hb⟩ := List.append_inj' hsplit rfl
    have hdigits := hrun.digits b (by simp)
    rw [← List.singleton_inj.mp hb] at hdigits
    exact absurd hdigits hdigit

/-- A digit makes every run longer. -/
theorem runValues_digit {bytes : List UInt8} {byte : UInt8} {n : ℕ} (hdigit : IsDigit byte)
    (h : IsGreatest (runValues bytes) n) :
    IsGreatest (runValues (bytes ++ [byte])) (addDigit n byte) := by
  obtain ⟨⟨front, digits, hrun, hn⟩, hmax⟩ := h
  constructor
  · refine ⟨front, digits ++ [byte], ⟨?_, hrun.csi, ?_⟩, ?_⟩
    · rw [← List.append_assoc, ← hrun.split]
    · exact List.forall_mem_append.mpr ⟨hrun.digits, List.forall_mem_singleton.mpr hdigit⟩
    · rw [fieldValue_concat, ← hn]
  · rintro v ⟨front, digits, hrun, rfl⟩
    rcases List.eq_nil_or_concat digits with rfl | ⟨digits, b, rfl⟩
    · exact Nat.zero_le _
    · have hsplit := hrun.split
      rw [List.concat_eq_append, ← List.append_assoc] at hsplit
      obtain ⟨hfront, hb⟩ := List.append_inj' hsplit rfl
      have hdigits : ∀ b ∈ digits, IsDigit b := fun b' hb' => hrun.digits b' (by simp [hb'])
      have hle := hmax ⟨front, digits, ⟨hfront, hrun.csi, hdigits⟩, rfl⟩
      rw [List.concat_eq_append, fieldValue_concat, ← List.singleton_inj.mp hb]
      unfold addDigit
      omega

/-- **The accumulator is the greatest number that the digits at the end stand for**, as long as
they have fitted. -/
theorem accumulates_step (hground : c.ansiParserState = .ground) (bytes : List UInt8) (byte : UInt8)
    (h : ansiAfter bytes = .csi → ∃ n, Accumulates (bytes.foldl consolePutc c).toTerm bytes n)
    (hfits : DigitFits (bytes.foldl consolePutc c) byte)
    (hcsi : ansiAfter (bytes ++ [byte]) = .csi) :
    ∃ n, Accumulates ((bytes ++ [byte]).foldl consolePutc c).toTerm (bytes ++ [byte]) n := by
  let u := bytes.foldl consolePutc c
  have hstate : u.ansiParserState = ansiAfter bytes := consolePutcs_state hground bytes
  have hnext := hcsi
  rw [ansiAfter_concat] at hnext
  rw [List.foldl_concat]
  show ∃ n, Accumulates (consolePutc u byte).toTerm _ n
  cases hbefore : ansiAfter bytes with
  | ground =>
    rw [hbefore, ansiNext] at hnext
    split at hnext <;> exact absurd hnext (by decide)
  | esc =>
    -- `[` begins a control sequence
    have hbracket : byte = 0x5B := by
      by_contra hne
      rw [hbefore, ansiNext, if_neg hne] at hnext
      split at hnext <;> exact absurd hnext (by decide)
    subst hbracket
    have hsent := congrArg (fun t => t.ansiParserState) (sent_agree u 0x5B).term
    have hput : (consolePutc u 0x5B).toTerm =
        ansiResetParams { (u.sent 0x5B).toTerm with ansiParserState := .csi } := by
      rw [consolePutc_sent_esc (hsent.trans (hstate.trans hbefore))]
      rfl
    rw [hput]
    exact ⟨0, rfl, by decide, runValues_other (by decide) hcsi, fun _ => rfl⟩
  | csi =>
    have hopen : u.ansiParserState = .csi := hstate.trans hbefore
    have hparam : IsParam byte := by
      by_contra hother
      rw [hbefore, ansiNext, if_neg hother] at hnext
      exact absurd hnext (by decide)
    have hput : (consolePutc u byte).toTerm = csiParam u.toTerm byte := by
      rw [consolePutc_param hopen hparam]
      exact congrArg (fun t => csiParam t byte) (serialWriteChar_toTerm u byte)
    obtain ⟨n, hn⟩ := h hbefore
    rw [hput]
    by_cases hdigit : IsDigit byte
    · have hsum : u.ansiParamCurrent * 10 + (byte - 0x30).toNat = (addDigit n byte : ℕ) := by
        rw [hn.current]
        rfl
      have hsmall : addDigit n byte < 2 ^ 31 := by
        have hrange := (hfits hopen hdigit).2
        rw [hsum] at hrange
        exact_mod_cast hrange
      refine ⟨addDigit n byte, ?_, hsmall, runValues_digit hdigit hn.greatest, fun hactive => ?_⟩
      · rw [csiParam, if_pos hdigit]
        show int32 (u.ansiParamCurrent * 10 + (byte - 0x30).toNat) = _
        rw [hsum, int32_of_lt hsmall]
      · rw [csiParam, if_pos hdigit] at hactive
        exact Bool.noConfusion hactive
    · -- `;` ends a parameter, unless there is none to end
      refine ⟨0, ?_, by decide, runValues_other hdigit hcsi, fun _ => rfl⟩
      rw [csiParam, if_neg hdigit, ansiPushCurrentParam]
      split
      · rename_i hnone
        rw [hn.current, hn.inactive (by simpa using hnone.1)]
      · rfl

/-- **The computation stays in `int` exactly when no run of digits in a control sequence stands
for `2 ^ 31` or more.** -/
theorem params_fit_iff (c : Console) (hground : c.ansiParserState = .ground)
    (bytes : List UInt8) :
    (∀ front byte, front ++ [byte] <+: bytes → DigitFits (front.foldl consolePutc c) byte) ↔
      ∀ front digits, front ++ digits <+: bytes → ansiAfter front = .csi →
        (∀ b ∈ digits, IsDigit b) → fieldValue digits < 2 ^ 31 := by
  let Fits (read : List UInt8) : Prop := ∀ v ∈ runValues read, v < 2 ^ 31
  let Reads (read : List UInt8) : Prop :=
    ansiAfter read = .csi → ∃ n, Accumulates (read.foldl consolePutc c).toTerm read n
  have hstart : Reads [] := fun h => absurd h (by decide)
  have hok : ∀ read, Reads read → Fits read := by
    rintro read hread v ⟨front, digits, hrun, rfl⟩
    have hcsi := ansiAfter_digits hrun.csi digits hrun.digits
    rw [← hrun.split] at hcsi
    obtain ⟨n, hn⟩ := hread hcsi
    exact (hn.greatest.2 ⟨front, digits, hrun, rfl⟩).trans_lt hn.small
  have hgood : ∀ read byte, read ++ [byte] <+: bytes → Reads read → Fits (read ++ [byte]) →
      DigitFits (read.foldl consolePutc c) byte := by
    intro read byte _ hread hfits hopen hdigit
    rw [consolePutcs_state hground] at hopen
    obtain ⟨n, hn⟩ := hread hopen
    have hlonger := hfits _ (runValues_digit hdigit hn.greatest).1
    rw [hn.current]
    refine ⟨Int.natCast_nonneg (n * 10 + (byte - 0x30).toNat), ?_⟩
    exact_mod_cast hlonger
  have hiff := Prefixes.forall_iff_of_invariant hstart
    (fun read byte _ => accumulates_step hground read byte) hok hgood
  rw [← hiff]
  constructor
  · exact fun h front digits hprefix hcsi hdigits =>
      h _ hprefix _ ⟨front, digits, ⟨rfl, hcsi, hdigits⟩, rfl⟩
  · rintro h read hread v ⟨front, digits, hrun, rfl⟩
    exact h front digits (hrun.split ▸ hread) hrun.csi hrun.digits

/-- Few digits fit. -/
theorem fieldValue_lt {digits : List UInt8} (hdigits : ∀ b ∈ digits, IsDigit b) :
    fieldValue digits < 10 ^ digits.length := by
  rw [fieldValue_eq_ofDigits, ← List.length_reverse, ← List.length_map digitNat]
  refine Nat.ofDigits_lt_base_pow_length (by decide) fun d hd => ?_
  obtain ⟨b, hb, rfl⟩ := List.mem_map.mp hd
  exact (hdigits b (List.mem_reverse.mp hb)).nat_lt

theorem params_fit_iff_home :
    DigitFits (List.foldl consolePutc (idleConsole vgaText) [0x1B, 0x5B]) 0x35 := by
  have hfits := (params_fit_iff (idleConsole vgaText) rfl [0x1B, 0x5B, 0x35, 0x48]).mpr
    fun front digits hprefix _ hdigits => by
      have hlength : front.length + digits.length ≤ 4 := by
        rw [← List.length_append]
        exact hprefix.length_le
      have hpow : 10 ^ digits.length ≤ 10 ^ 4 := Nat.pow_le_pow_right (by decide) (by omega)
      exact (fieldValue_lt hdigits).trans (hpow.trans_lt (by decide))
  exact hfits [0x1B, 0x5B] 0x35 (by decide)

/-- ESC `[2147483648`, the least number that is not in the range of a 32-bit `int`. No final byte
is needed. -/
def overflowingSequence : List UInt8 :=
  [0x1B, 0x5B, 0x32, 0x31, 0x34, 0x37, 0x34, 0x38, 0x33, 0x36, 0x34, 0x38]

/-- Its last digit leaves the range of `int`. -/
theorem lastDigit_overflows :
    (idleConsole vgaText).ansiParserState = .ground ∧
      ¬∀ front byte, front ++ [byte] <+: overflowingSequence →
        DigitFits (front.foldl consolePutc (idleConsole vgaText)) byte := by
  refine ⟨rfl, fun h => ?_⟩
  have hlast := h (overflowingSequence.take 11) 0x38 (List.prefix_refl _)
  exact absurd (hlast (by decide) (by decide)).2 (by decide)

end WaluOs
