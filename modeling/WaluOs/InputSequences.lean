import Mathlib.Data.Bool.AllAny
import WaluOs.Blind
import WaluOs.TtyRuns

/-!
# Escape sequences in the input

The filter of canonical mode discards an escape sequence byte by byte, whatever the bytes in
its middle are, and counts them. Nothing else in the receive path looks at the two counters
(`Blind`), so a run with such sequences in it is the run without them, with the counters
ahead.
-/

namespace WaluOs

open Blindness

/-! ## Sequences -/

/-- ESC, `[` or `O`, any bytes outside `0x40..0x7E`, and one inside. All sequences that the
keyboard driver puts out are of this form. -/
structure InputSequence : Type where
  /-- `[` or `O` -/
  introducer : UInt8
  /-- the bytes outside -/
  middle : List UInt8
  /-- the byte inside -/
  final : UInt8
  introducer_eq : introducer = 0x5B ∨ introducer = 0x4F
  middle_outside : ∀ b ∈ middle, ¬(0x40 ≤ b ∧ b ≤ 0x7E)
  final_inside : 0x40 ≤ final ∧ final ≤ 0x7E

/-- What is received, byte by byte. -/
def InputSequence.bytes (q : InputSequence) : List UInt8 :=
  0x1B :: q.introducer :: (q.middle ++ [q.final])

/-- What `kbd_emit_special_sequence` emits has this shape. -/
theorem kbdSpecialSequence_shape (key : KeyCode) :
    kbdSpecialSequence key = [] ∨ ∃ q : InputSequence, q.bytes = kbdSpecialSequence key := by
  have hshape : ∀ introducer middle final, introducer = (0x5B : UInt8) ∨ introducer = 0x4F →
      (∀ b ∈ middle, ¬((0x40 : UInt8) ≤ b ∧ b ≤ 0x7E)) → (0x40 : UInt8) ≤ final ∧ final ≤ 0x7E →
      ∃ q : InputSequence, q.bytes = 0x1B :: introducer :: (middle ++ [final]) :=
    fun introducer middle final hi hm hf => ⟨⟨introducer, middle, final, hi, hm, hf⟩, rfl⟩
  cases key
  all_goals first
    | exact Or.inl rfl
    | exact Or.inr (hshape 0x5B [] _ (by decide) (List.all_iff_forall_prop.mp rfl) (by decide))
    | exact Or.inr (hshape 0x4F [] _ (by decide) (List.all_iff_forall_prop.mp rfl) (by decide))
    | exact Or.inr (hshape 0x5B [_] _ (by decide) (List.all_iff_forall_prop.mp rfl) (by decide))
    | exact Or.inr (hshape 0x5B [_, _] _ (by decide) (List.all_iff_forall_prop.mp rfl) (by decide))

/-! ## The counters -/

/-- `s` after `n` more discarded bytes: two counters have moved, and nothing else. -/
def Sys.counted (n : ℕ) (s : Sys) : Sys :=
  { s with
    tty.ttyRxCount := s.tty.ttyRxCount + UInt64.ofNat n
    tty.ttyEscapeDiscardCount := s.tty.ttyEscapeDiscardCount + UInt64.ofNat n }

theorem add_one_ofNat (count : UInt64) (n : ℕ) :
    count + UInt64.ofNat n + 1 = count + 1 + UInt64.ofNat n := by
  rw [UInt64.add_assoc, UInt64.add_comm (UInt64.ofNat n), ← UInt64.add_assoc]

theorem ttyEnqueueRead_blind (byte : UInt8) :
    Blind Sys.counted fun s => (ttyEnqueueRead s byte).1 := by
  intro n s
  dsimp only
  rw [ttyEnqueueRead, ttyEnqueueRead]
  simp only [apply_ite Prod.fst, apply_ite (Sys.counted n)]
  rfl

theorem ttyFlushLineBuffer_blind : Blind Sys.counted ttyFlushLineBuffer := by
  intro n s
  have hline : (s.counted n).tty.ttyLine = s.tty.ttyLine := rfl
  rw [ttyFlushLineBuffer, ttyFlushLineBuffer, hline]
  exact congrArg (fun s : Sys => { s with tty.ttyLine := [] })
    (Blind.foldl ttyEnqueueRead_blind s.tty.ttyLine n s)

theorem ttyHandleEscapeFilter_blind (byte : UInt8) :
    Blind Sys.counted (fun s => (ttyHandleEscapeFilter s byte).1) ∧
      ∀ n s, (ttyHandleEscapeFilter (s.counted n) byte).2 = (ttyHandleEscapeFilter s byte).2 := by
  refine ⟨fun n s => ?_, fun n s => ?_⟩
  · have hcount := add_one_ofNat s.tty.ttyEscapeDiscardCount n
    dsimp only
    rw [ttyHandleEscapeFilter, ttyHandleEscapeFilter]
    simp only [apply_ite Prod.fst, apply_ite (Sys.counted n)]
    simp only [Sys.counted, hcount]
  · rw [ttyHandleEscapeFilter, ttyHandleEscapeFilter]
    simp only [apply_ite Prod.snd]
    rfl

/-- Calls are made in any case. -/
theorem emit_if_blind (cs : Sys → List Call) (hcs : ∀ n s, cs (s.counted n) = cs s)
    {p : Sys → Prop} [DecidablePred p] (hp : ∀ n s, p (s.counted n) ↔ p s) :
    Blind Sys.counted fun s => if p s then s.emit (cs s) else s := by
  refine Blind.ite hp (fun n s => ?_) fun _ _ => rfl
  rw [hcs]
  rfl

theorem ttyHandleNewline_blind : Blind Sys.counted ttyHandleNewline := by
  have hplace : Blind Sys.counted fun s =>
      if s.tty.ttyLine.length + 1 < ttyLineBufferSize then
        { s with tty.ttyLine := s.tty.ttyLine ++ [0x0A] }
      else
        { s with
          tty.ttyDropCount := s.tty.ttyDropCount + 1
          tty.ttyLineOverflowCount := s.tty.ttyLineOverflowCount + 1
          tty.ttyLineTruncated := true } :=
    Blind.ite (fun _ _ => Iff.rfl) (fun _ _ => rfl) fun _ _ => rfl
  have hecho := emit_if_blind (fun _ => [.consolePutc 0x0A]) (fun _ _ => rfl)
    (p := fun s => s.tty.ttyEcho = true) fun _ _ => Iff.rfl
  have hend : Blind Sys.counted fun s => { s with tty.ttyLineTruncated := false } := fun _ _ => rfl
  exact hend.comp (ttyFlushLineBuffer_blind.comp (hecho.comp hplace))

theorem ttyHandleData_blind (byte : UInt8) : Blind Sys.counted fun s => ttyHandleData s byte := by
  have hbell := emit_if_blind (fun _ => [.consolePutc 0x07]) (fun _ _ => rfl)
    (p := fun s => (!s.tty.ttyLineTruncated && s.tty.ttyEcho) = true) fun _ _ => Iff.rfl
  have hecho := emit_if_blind (fun _ => [.consolePutc byte]) (fun _ _ => rfl)
    (p := fun s => s.tty.ttyEcho = true) fun _ _ => Iff.rfl
  have hlost : Blind Sys.counted fun s => { s with
      tty.ttyDropCount := s.tty.ttyDropCount + 1
      tty.ttyLineOverflowCount := s.tty.ttyLineOverflowCount + 1 } := fun _ _ => rfl
  have htruncated : Blind Sys.counted fun s => { s with tty.ttyLineTruncated := true } :=
    fun _ _ => rfl
  have hjoin : Blind Sys.counted fun s => { s with tty.ttyLine := s.tty.ttyLine ++ [byte] } :=
    fun _ _ => rfl
  exact Blind.ite (fun _ _ => Iff.rfl) (htruncated.comp (hbell.comp hlost)) (hecho.comp hjoin)

/-- The line editor does not look at the two counters: what it does commutes with counting a
sequence. -/
theorem ttyHandleCanonical_blind (byte : UInt8) :
    Blind Sys.counted fun s => ttyHandleCanonical s byte := by
  obtain ⟨hfilter, hdiscards⟩ := ttyHandleEscapeFilter_blind byte
  have hread := ttyEnqueueRead_blind byte
  have hcut : Blind Sys.counted fun s => { s with tty.ttyLine := [] } := fun _ _ => rfl
  have hsame : Blind Sys.counted fun s => s := fun _ _ => rfl
  have hinterrupt := emit_if_blind (fun _ => [.consoleWrite (text "^C\n")]) (fun _ _ => rfl)
    (p := fun s => s.tty.ttyEcho = true) fun _ _ => Iff.rfl
  have herased := emit_if_blind (fun _ => [.consoleBackspace]) (fun _ _ => rfl)
    (p := fun s => s.tty.ttyEcho = true) fun _ _ => Iff.rfl
  have hshorter : Blind Sys.counted fun s => { s with tty.ttyLine := s.tty.ttyLine.dropLast } :=
    fun _ _ => rfl
  have hdelete : Blind Sys.counted fun s =>
      if s.tty.ttyLine.length > 0 then
        (fun s : Sys => if s.tty.ttyEcho = true then s.emit [.consoleBackspace] else s)
          { s with tty.ttyLine := s.tty.ttyLine.dropLast }
      else s :=
    .ite (fun _ _ => Iff.rfl) (herased.comp hshorter) hsame
  have hend : Blind Sys.counted fun s =>
      if s.tty.ttyLine.length = 0 then (ttyEnqueueRead s byte).1 else ttyFlushLineBuffer s :=
    .ite (fun _ _ => Iff.rfl) hread ttyFlushLineBuffer_blind
  -- what the filter lets through
  have hdata := Blind.ite (p := fun _ => (!ttyIsPrintable byte) = true) (fun _ _ => Iff.rfl) hsame
    (ttyHandleData_blind byte)
  have heof := Blind.ite (p := fun _ => byte = 0x04) (fun _ _ => Iff.rfl) hend hdata
  have hnewline := Blind.ite (p := fun _ => byte = 0x0A) (fun _ _ => Iff.rfl)
    ttyHandleNewline_blind heof
  have herase := Blind.ite (p := fun _ => byte = 0x08 ∨ byte = 0x7F) (fun _ _ => Iff.rfl) hdelete
    hnewline
  have hredraw := Blind.ite (p := fun _ => byte = 0x0C) (fun _ _ => Iff.rfl) hread herase
  have hpassed := Blind.ite (p := fun _ => byte = 0x03) (fun _ _ => Iff.rfl)
    (hinterrupt.comp (hread.comp hcut)) hredraw
  exact Blind.ite (fun n s => by rw [hdiscards]) hfilter (hpassed.comp hfilter)

theorem ttyReceive_blind (byte : UInt8) : Blind Sys.counted fun s => ttyReceive s byte := by
  have hcount : Blind Sys.counted fun s => { s with tty.ttyRxCount := s.tty.ttyRxCount + 1 } := by
    intro n s
    have hswap := add_one_ofNat s.tty.ttyRxCount n
    simp only [Sys.counted, hswap]
  have hecho := emit_if_blind (fun _ => [.consolePutc byte]) (fun _ _ => rfl)
    (p := fun s => s.tty.ttyEcho = true) fun _ _ => Iff.rfl
  have hraw : Blind Sys.counted fun s => ttyHandleNoncanonical s byte :=
      hecho.comp (ttyEnqueueRead_blind byte)
  have hmode : Blind Sys.counted fun s =>
      if s.tty.ttyCanonical = true then ttyHandleCanonical s byte
      else ttyHandleNoncanonical s byte :=
    .ite (fun _ _ => Iff.rfl) (ttyHandleCanonical_blind byte) hraw
  exact hmode.comp hcount

theorem ttyStep_blind (op : TtyOp) : Blind Sys.counted fun s => ttyStep s op := by
  cases op with
  | receive byte => exact ttyReceive_blind byte
  | popChar =>
    intro n s
    simp only [ttyStep, ttyPopChar, apply_ite Prod.fst, apply_ite (Sys.counted n)]
    rfl
  | setCanonical enabled => exact fun _ _ => rfl
  | setEcho enabled => exact fun _ _ => rfl
  | attachSession sessionId ptyId => exact fun _ _ => rfl
  | pty op => exact fun _ _ => rfl

/-! ## Inserted sequences -/

/-- A discarded byte moves the filter and is counted. -/
theorem ttyReceive_discards {s : Sys} (hcanon : s.tty.ttyCanonical = true) {byte : UInt8}
    (h : (escapeStep s.tty.ttyEscapeState byte).2 = true) :
    ttyReceive s byte =
      { s.counted 1 with
        tty.ttyEscapeState := (escapeStep s.tty.ttyEscapeState byte).1 } := by
  have hfilter : ttyHandleEscapeFilter { s with tty.ttyRxCount := s.tty.ttyRxCount + 1 } byte =
      ({ s.counted 1 with
          tty.ttyEscapeState := (escapeStep s.tty.ttyEscapeState byte).1 }, true) := by
    rw [escapeStep] at h ⊢
    rw [ttyHandleEscapeFilter]
    dsimp only
    split_ifs at h ⊢ <;> rfl
  rw [ttyReceive, if_pos hcanon, ttyHandleCanonical, hfilter]
  rfl

theorem counted_zero (s : Sys) : s.counted 0 = s := by
  have hzero : ∀ count : UInt64, count + UInt64.ofNat 0 = count := UInt64.add_zero
  rw [Sys.counted, hzero, hzero]

theorem counted_counted (s : Sys) (m n : ℕ) : (s.counted m).counted n = s.counted (m + n) := by
  have hadd : ∀ count : UInt64, count + UInt64.ofNat m + UInt64.ofNat n =
      count + UInt64.ofNat (m + n) := by
    intro count
    rw [UInt64.ofNat_add, UInt64.add_assoc]
  simp only [Sys.counted, hadd]

/-- The middle of a sequence, newlines and interrupts included. -/
theorem ttyReceives_middle (middle : List UInt8) :
    ∀ {s : Sys}, s.tty.ttyCanonical = true → s.tty.ttyEscapeState = 2 →
      (∀ b ∈ middle, ¬(0x40 ≤ b ∧ b ≤ 0x7E)) →
        middle.foldl ttyReceive s = s.counted middle.length := by
  induction middle with
  | nil => exact fun _ _ _ => (counted_zero _).symm
  | cons b middle ih =>
    intro s hcanon hescape hmiddle
    obtain ⟨hb, hmiddle⟩ := List.forall_mem_cons.mp hmiddle
    have hstep : escapeStep s.tty.ttyEscapeState b = (2, true) := by
      rw [hescape, escapeStep, if_neg (by decide), if_neg (by decide), if_neg fun h => hb h.2]
    have hone : ttyReceive s b = s.counted 1 := by
      rw [ttyReceive_discards hcanon (by rw [hstep]), hstep, ← hescape]
      rfl
    rw [List.foldl_cons, hone, ih (s := s.counted 1) hcanon hescape hmiddle, counted_counted,
      List.length_cons, Nat.add_comm]

/-- **A sequence changes nothing** but the two counters. The first byte opens the filter, and the
final one closes it. -/
theorem ttyReceives_sequence {s : Sys} (hs : Editing s) (q : InputSequence) :
    q.bytes.foldl ttyReceive s = s.counted q.bytes.length := by
  obtain ⟨introducer, middle, final, hintroducer, hmiddle, hfinal⟩ := q
  have hesc : escapeStep s.tty.ttyEscapeState 0x1B = (1, true) := by
    rw [hs.idle]
    rfl
  have hintro : escapeStep 1 introducer = (2, true) := by
    rw [escapeStep, if_neg (by decide), if_pos rfl, if_pos hintroducer]
  have hend : escapeStep 2 final = (0, true) := by
    rw [escapeStep, if_neg (by decide), if_neg (by decide), if_pos ⟨rfl, hfinal⟩]
  have hone : ttyReceive s 0x1B = { s.counted 1 with tty.ttyEscapeState := 1 } := by
    rw [ttyReceive_discards hs.canonical (by rw [hesc]), hesc]
  have htwo : ttyReceive (ttyReceive s 0x1B) introducer =
      { s.counted 2 with tty.ttyEscapeState := 2 } := by
    rw [hone, ttyReceive_discards (s := { s.counted 1 with tty.ttyEscapeState := 1 })
      hs.canonical (by rw [hintro]), hintro, ← counted_counted s 1 1]
    rfl
  have hall : middle.foldl ttyReceive { s.counted 2 with tty.ttyEscapeState := 2 } =
      { s.counted (2 + middle.length) with tty.ttyEscapeState := 2 } := by
    rw [ttyReceives_middle middle (s := { s.counted 2 with tty.ttyEscapeState := 2 })
      hs.canonical rfl hmiddle, ← counted_counted]
    rfl
  rw [InputSequence.bytes, List.foldl_cons, List.foldl_cons, htwo, List.foldl_append, hall,
    List.foldl_cons, List.foldl_nil,
    ttyReceive_discards (s := { s.counted (2 + middle.length) with tty.ttyEscapeState := 2 })
      hs.canonical (by rw [hend]), hend]
  have hlength : (0x1B :: introducer :: (middle ++ [final])).length = 2 + middle.length + 1 := by
    simp
    omega
  rw [hlength, ← counted_counted s _ 1, ← hs.idle]
  rfl

/-- `ops'` is `ops` with sequences received in between, `n` bytes in all, each of them where
canonical mode is on and the filter idle. They may stand anywhere else, also in the middle of a
line. -/
inductive WithSequences : Sys → List TtyOp → List TtyOp → ℕ → Prop
  /-- nothing more happens -/
  | nil (s : Sys) : WithSequences s [] [] 0
  /-- an operation of `ops` -/
  | op {s : Sys} {op : TtyOp} {ops ops' : List TtyOp} {n : ℕ}
      (h : WithSequences (ttyStep s op) ops ops' n) : WithSequences s (op :: ops) (op :: ops') n
  /-- a sequence -/
  | sequence {s : Sys} {ops ops' : List TtyOp} {n : ℕ} (hs : Editing s) (q : InputSequence)
      (h : WithSequences s ops ops' n) :
      WithSequences s ops (q.bytes.map .receive ++ ops') (q.bytes.length + n)

/-- A run with sequences in it is the run without them, with the counters ahead. -/
theorem WithSequences.run {s : Sys} {ops ops' : List TtyOp} {n : ℕ}
    (h : WithSequences s ops ops' n) :
    ops'.foldl ttyStep s = (ops.foldl ttyStep s).counted n := by
  induction h with
  | nil s => exact (counted_zero s).symm
  | op h ih => exact ih
  | @sequence s ops ops' n hs q h ih =>
    have hall : ops'.foldl ttyStep (s.counted q.bytes.length) =
        (ops'.foldl ttyStep s).counted q.bytes.length :=
      Blind.foldl ttyStep_blind ops' q.bytes.length s
    rw [List.foldl_append, List.foldl_map]
    refine (congrArg (fun t => ops'.foldl ttyStep t) (ttyReceives_sequence hs q)).trans ?_
    rw [hall, ih, counted_counted, Nat.add_comm]

/-- **Escape sequences are invisible** to canonical input, and the keyboard emits no others. They
may stand anywhere and be of any length: the filter takes all bytes up to the final one. -/
theorem inputSequences_invisible :
    (∀ key, kbdSpecialSequence key = [] ∨ ∃ q : InputSequence, q.bytes = kbdSpecialSequence key) ∧
    (∀ s, Editing s → ∀ q : InputSequence,
      q.bytes.foldl ttyReceive s = s.counted q.bytes.length) ∧
    ∀ s ops ops' n, WithSequences s ops ops' n →
      ops'.foldl ttyStep s = (ops.foldl ttyStep s).counted n :=
  ⟨kbdSpecialSequence_shape, fun _ hs q => ttyReceives_sequence hs q, fun _ _ _ _ h => h.run⟩

/-- A sequence with a newline, an interrupt and an ESC in its middle. -/
def oddSequence : InputSequence :=
  ⟨0x5B, [0x0A, 0x03, 0x1B], 0x41, by decide, List.all_iff_forall_prop.mp rfl, by decide⟩

/-- Between two letters it leaves the line as it is. -/
theorem inputSequences_invisible_odd :
    ((TtyOp.receive 0x61 :: (oddSequence.bytes.map .receive ++ [.receive 0x62])).foldl ttyStep
        (ttyStart sysZero)).tty.ttyLine = [0x61, 0x62] := by
  have hinserted : WithSequences (ttyStart sysZero) [.receive 0x61, .receive 0x62]
      (.receive 0x61 :: (oddSequence.bytes.map .receive ++ [.receive 0x62])) 6 :=
    .op (.sequence ⟨rfl, rfl⟩ oddSequence (.op (.nil _)))
  rw [inputSequences_invisible.2.2 _ _ _ _ hinserted]
  rfl

end WaluOs
