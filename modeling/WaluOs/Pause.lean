import Mathlib.Data.List.Induction
import WaluOs.KeyboardDecode
import WaluOs.Shell

/-!
# The Pause key

Pause sends `E1 1D 45 E1 9D C5` and is to be ignored: `keyboard_on_irq` skips the five
bytes behind an `0xE1`. But the second `0xE1` starts a skip of its own, of which only two
bytes are left in the sequence. So three more are skipped of what comes after it, and an
`0xE0` among them, which is no part of the count, stays pending.

`pause_ignored_iff` says for which streams this makes no difference: those that have no
key in the bytes that are skipped, and no later code that the pending `0xE0` turns into
another one (`PauseUnnoticed`).
-/

namespace WaluOs

/-- What the Pause key sends. -/
def pauseSequence : List UInt8 := [0xE1, 0x1D, 0x45, 0xE1, 0x9D, 0xC5]

/-! ## What is skipped -/

/-- The bytes that a pending skip of `n` swallows of a stream, up to the next `0xE1`, and
the others. -/
def swallow : ℕ → List UInt8 → List UInt8 × List UInt8
  | 0, bytes => ([], bytes)
  | _ + 1, [] => ([], [])
  | n + 1, b :: bytes =>
    if b = 0xE1 then
      ([], b :: bytes)
    else
      let r := swallow (if b = 0xE0 then n + 1 else n) bytes
      (b :: r.1, r.2)

/-- The key actions of bytes without an `0xE1`, when nothing is skipped. -/
def plainKeys : Bool → List UInt8 → List KeyAction
  | _, [] => []
  | extended, b :: bytes =>
    if b = 0xE0 then plainKeys true bytes else keyActions extended b ++ plainKeys false bytes

/-- The bytes end with an `0xE0`. -/
def endsExtended (extended : Bool) (bytes : List UInt8) : Bool :=
  bytes.foldl (fun _ b => b == 0xE0) extended

/-- The first byte that is looked up when `n` are still to skip, if no `0xE0` comes before
it. -/
def firstPlain : ℕ → List UInt8 → Option UInt8
  | _, [] => none
  | n, b :: bytes =>
    if b = 0xE0 then none
    else if b = 0xE1 then firstPlain 5 bytes
    else if n > 0 then firstPlain (n - 1) bytes
    else some b

/-- Skipping three bytes of `after` makes no difference: no key is skipped; or the keys
that are, and the first code that comes after them, are together what that code is behind
an `0xE0` that stays pending. -/
def PauseUnnoticed (after : List UInt8) : Prop :=
  let swallowed := (swallow 3 after).1
  let rest := (swallow 3 after).2
  if 0xE0 ∈ swallowed ∧ endsExtended false swallowed = false then
    match firstPlain 0 rest with
    | some b => plainKeys false swallowed ++ keyActions false b = keyActions true b
    | none => plainKeys false swallowed = []
  else
    plainKeys false swallowed = []

/-! ## Three kinds of bytes -/

namespace Decoder

theorem step_extends (d : Decoder) : d.step 0xE0 = (⟨true, d.skip⟩, []) := rfl

theorem step_skip {b : UInt8} (h0 : b ≠ 0xE0) (h1 : b ≠ 0xE1) (extended : Bool) (n : ℕ) :
    Decoder.step ⟨extended, n + 1⟩ b = (⟨extended, n⟩, []) := by
  rw [Decoder.step, if_neg h0, if_neg h1, if_pos (Nat.zero_lt_succ n)]
  rfl

theorem step_lookup {b : UInt8} (h0 : b ≠ 0xE0) (h1 : b ≠ 0xE1) (extended : Bool) :
    Decoder.step ⟨extended, 0⟩ b = (⟨false, 0⟩, keyActions extended b) := by
  rw [Decoder.step, if_neg h0, if_neg h1, if_neg (Nat.lt_irrefl 0)]

/-- The outputs of a stream. -/
abbrev keys (d : Decoder) (bytes : List UInt8) : List KeyAction :=
  (Mealy.run Decoder.step d bytes).2

/-- Nothing is skipped. -/
theorem run_plain (bytes : List UInt8) :
    ∀ extended : Bool, 0xE1 ∉ bytes →
      Mealy.run Decoder.step ⟨extended, 0⟩ bytes =
        (⟨endsExtended extended bytes, 0⟩, plainKeys extended bytes) := by
  induction bytes with
  | nil => exact fun _ _ => rfl
  | cons b bytes ih =>
    intro extended hmem
    obtain ⟨h1, hrest⟩ := not_or.mp (mt List.mem_cons.mpr hmem)
    rw [Mealy.run_cons, plainKeys]
    by_cases h0 : b = 0xE0
    · subst h0
      rw [step_extends, ih true hrest, if_pos rfl]
      rfl
    · rw [step_lookup h0 (Ne.symm h1), ih false hrest, if_neg h0]
      refine congrArg (Prod.mk · _) ?_
      rw [endsExtended, endsExtended, List.foldl_cons, beq_eq_false_iff_ne.mpr h0]

/-- A skip ends after its bytes, at an `0xE1`, or with the stream. -/
theorem run_swallow (bytes : List UInt8) :
    ∀ (n : ℕ) (extended : Bool), ∃ r,
      Mealy.run Decoder.step ⟨extended, n⟩ (swallow n bytes).1 =
          (⟨extended || decide (0xE0 ∈ (swallow n bytes).1), r⟩, []) ∧
        (r = 0 ∨ (swallow n bytes).2 = [] ∨ ∃ rest, (swallow n bytes).2 = 0xE1 :: rest) := by
  induction bytes with
  | nil =>
    intro n extended
    cases n with
    | zero => exact ⟨0, by rw [swallow]; simp, Or.inl rfl⟩
    | succ n => exact ⟨n + 1, by rw [swallow]; simp, Or.inr (Or.inl rfl)⟩
  | cons b bytes ih =>
    intro n extended
    cases n with
    | zero => exact ⟨0, by rw [swallow]; simp, Or.inl rfl⟩
    | succ n =>
      rw [swallow]
      by_cases h1 : b = 0xE1
      · rw [if_pos h1]
        exact ⟨n + 1, by simp, Or.inr (Or.inr ⟨bytes, by rw [h1]⟩)⟩
      · rw [if_neg h1]
        by_cases h0 : b = 0xE0
        -- A prefix is not counted as a byte of the Pause sequence.
        · obtain ⟨r, hrun, hend⟩ := ih (n + 1) true
          subst h0
          rw [if_pos rfl]
          refine ⟨r, ?_, hend⟩
          rw [Mealy.run_cons, step_extends, hrun]
          simp
        · obtain ⟨r, hrun, hend⟩ := ih n extended
          rw [if_neg h0]
          refine ⟨r, ?_, hend⟩
          rw [Mealy.run_cons, step_skip h0 h1, hrun]
          simp [Ne.symm h0]

/-- Where a skip has ended, it makes no difference that it has. -/
theorem keys_skip_ended {extended : Bool} {r : ℕ} {rest : List UInt8}
    (h : r = 0 ∨ rest = [] ∨ ∃ after, rest = 0xE1 :: after) :
    keys ⟨extended, r⟩ rest = keys ⟨extended, 0⟩ rest := by
  rcases h with rfl | rfl | ⟨after, rfl⟩
  · rfl
  · rfl
  · rfl

/-- What a pending `0xE0` changes: the first code that is looked up, unless there is an
`0xE0` before it anyway. -/
theorem keys_pending (bytes : List UInt8) :
    ∀ n : ℕ,
      (firstPlain n bytes = none ∧ keys ⟨true, n⟩ bytes = keys ⟨false, n⟩ bytes) ∨
      ∃ b rest, firstPlain n bytes = some b ∧ keys ⟨true, n⟩ bytes = keyActions true b ++ rest ∧
        keys ⟨false, n⟩ bytes = keyActions false b ++ rest := by
  induction bytes with
  | nil => exact fun _ => Or.inl ⟨rfl, rfl⟩
  | cons b bytes ih =>
    intro n
    rw [firstPlain, keys, keys, Mealy.run_cons, Mealy.run_cons]
    by_cases h0 : b = 0xE0
    · subst h0
      rw [if_pos rfl]
      exact Or.inl ⟨rfl, rfl⟩
    by_cases h1 : b = 0xE1
    · subst h1
      rw [if_neg h0, if_pos rfl]
      exact ih 5
    rw [if_neg h0, if_neg h1]
    cases n with
    | succ n =>
      rw [if_pos (Nat.zero_lt_succ n), step_skip h0 h1, step_skip h0 h1]
      exact ih n
    | zero =>
      rw [if_neg (Nat.lt_irrefl 0), step_lookup h0 h1, step_lookup h0 h1]
      exact Or.inr ⟨b, _, rfl, rfl, rfl⟩

end Decoder

theorem swallow_append (bytes : List UInt8) :
    ∀ n : ℕ, (swallow n bytes).1 ++ (swallow n bytes).2 = bytes ∧
      0xE1 ∉ (swallow n bytes).1 := by
  induction bytes with
  | nil =>
    intro n
    cases n <;> exact ⟨rfl, List.not_mem_nil⟩
  | cons b bytes ih =>
    intro n
    cases n with
    | zero => exact ⟨rfl, List.not_mem_nil⟩
    | succ n =>
      rw [swallow]
      split
      · exact ⟨rfl, List.not_mem_nil⟩
      · rename_i h1
        obtain ⟨happend, hmem⟩ := ih (if b = 0xE0 then n + 1 else n)
        refine ⟨congrArg (b :: ·) happend, fun hm => ?_⟩
        rcases List.mem_cons.mp hm with hb | hm
        · exact h1 hb.symm
        · exact hmem hm

theorem mem_of_endsExtended {bytes : List UInt8} (h : endsExtended false bytes = true) :
    0xE0 ∈ bytes := by
  induction bytes using List.reverseRecOn with
  | nil => cases h
  | append_singleton bytes b _ =>
    rw [endsExtended, List.foldl_append] at h
    exact List.mem_append_right _ (List.mem_singleton.mpr (eq_of_beq h).symm)

/-- **Skipping three bytes** changes no key exactly when it goes unnoticed. Keys that are skipped
can be made up for only by the first code behind them, if an `0xE0` that was skipped is still
pending and makes it another one. -/
theorem keys_skip_iff (after : List UInt8) :
    Decoder.keys ⟨false, 3⟩ after = Decoder.keys ⟨false, 0⟩ after ↔ PauseUnnoticed after := by
  obtain ⟨hsplit, hpause⟩ := swallow_append after 3
  obtain ⟨r, hskip, hend⟩ := Decoder.run_swallow after 3 false
  have hplain := Decoder.run_plain (swallow 3 after).1 false hpause
  rw [PauseUnnoticed]
  generalize (swallow 3 after).1 = swallowed at hsplit hskip hplain ⊢
  generalize (swallow 3 after).2 = rest at hsplit hend ⊢
  subst hsplit
  rw [Decoder.keys, Decoder.keys, Mealy.run_append, Mealy.run_append, hskip, hplain]
  rw [List.nil_append, Bool.false_or]
  change Decoder.keys ⟨_, r⟩ rest = plainKeys false swallowed ++ Decoder.keys ⟨_, 0⟩ rest ↔ _
  rw [Decoder.keys_skip_ended hend]
  split
  · rename_i hpending
    rw [hpending.2, decide_eq_true hpending.1]
    -- Without the skip the prefix has been used up; with it, it is still pending.
    rcases Decoder.keys_pending rest 0 with ⟨hnone, heq⟩ | ⟨b, later, hsome, hbehind, halone⟩
    · rw [hnone, heq]
      exact List.self_eq_append_left
    · rw [hsome, hbehind, halone, ← List.append_assoc, List.append_left_inj]
      exact eq_comm
  · rename_i hsame
    -- Both decoders have a prefix pending, or neither has.
    have hextended : decide (0xE0 ∈ swallowed) = endsExtended false swallowed := by
      cases hends : endsExtended false swallowed with
      | true => exact decide_eq_true (mem_of_endsExtended hends)
      | false => exact decide_eq_false fun hmem => hsame ⟨hmem, hends⟩
    rw [hextended]
    exact List.self_eq_append_left

/-! ## The Pause key -/

/-- The events that a stream produces, from `keyboard_init` on. They are pushed to the
event queue, and their bytes to the byte queue (`scancodeRun_follows`). -/
def keyEvents (scancodes : List UInt8) : List KeyEvent :=
  (Mealy.run keyboardStep machineStart scancodes).2

/-- No `0xE0` and no skip is pending: the driver has finished the last key, and whatever comes
next begins a new one. -/
structure KeyBoundary (k : Kbd) : Prop where
  /-- no prefix -/
  extended : k.kbdExtended = false
  /-- no Pause sequence -/
  skip : k.kbdE1Skip = 0

/-- A Pause key between two streams has no effect: all that can be observed of the driver
afterwards is as without it. -/
structure PauseIgnored (k : Kbd) (before after : List UInt8) : Prop where
  /-- the same events are produced -/
  events : keyEvents (before ++ pauseSequence ++ after) = keyEvents (before ++ after)
  /-- both queues are the same -/
  queues : (scancodeRun k (before ++ pauseSequence ++ after)).queues =
    (scancodeRun k (before ++ after)).queues
  /-- and the modifiers -/
  modifiers : (scancodeRun k (before ++ pauseSequence ++ after)).kbdModifiers =
    (scancodeRun k (before ++ after)).kbdModifiers
  /-- and the locks -/
  locks : (scancodeRun k (before ++ pauseSequence ++ after)).kbdLocks =
    (scancodeRun k (before ++ after)).kbdLocks
  /-- and the keys that are down -/
  keyDown : (scancodeRun k (before ++ pauseSequence ++ after)).kbdKeyDown =
    (scancodeRun k (before ++ after)).kbdKeyDown

/-- The events of a stream tell its key actions. -/
theorem press_actions (actions : List KeyAction) :
    ∀ s : KeyState, ((Mealy.run KeyState.press s actions).2.map fun e =>
      (⟨e.keycode, !e.pressed⟩ : KeyAction)) = actions := by
  induction actions with
  | nil => exact fun _ => rfl
  | cons a actions ih =>
    intro s
    rw [Mealy.run_cons, List.map_append, ih]
    refine congrArg (· :: actions) ?_
    obtain ⟨keycode, released⟩ := a
    cases released <;> rfl

/-- After a key boundary, what a stream does is what its key actions do. -/
theorem scancodeRun_boundary {k : Kbd} {before : List UInt8}
    (h : KeyBoundary (scancodeRun k before)) (scancodes : List UInt8) :
    keyEvents (before ++ scancodes) = keyEvents before ++
        (Mealy.run KeyState.press (scancodeRun k before).machine.2
          (Decoder.keys ⟨false, 0⟩ scancodes)).2 ∧
      (scancodeRun k (before ++ scancodes)).machine.2 =
        (Mealy.run KeyState.press (scancodeRun k before).machine.2
          (Decoder.keys ⟨false, 0⟩ scancodes)).1 := by
  have hbefore : (Mealy.run keyboardStep machineStart before).1 =
      (⟨false, 0⟩, (scancodeRun k before).machine.2) := by
    rw [← (scancodeRun_follows k before).1, Kbd.machine, h.extended, h.skip]
  have hrun : Mealy.run keyboardStep ((⟨false, 0⟩ : Decoder), (scancodeRun k before).machine.2)
      scancodes = _ := Mealy.run_comp scancodes _ _
  rw [(scancodeRun_follows k (before ++ scancodes)).1, keyEvents, Mealy.run_append, hbefore, hrun]
  exact ⟨rfl, rfl⟩

/-- The keys of a stream behind the Pause key. -/
theorem keys_pause (after : List UInt8) :
    Decoder.keys ⟨false, 0⟩ (pauseSequence ++ after) = Decoder.keys ⟨false, 3⟩ after := by
  have hpause : Mealy.run Decoder.step ⟨false, 0⟩ pauseSequence = (⟨false, 3⟩, []) := rfl
  rw [Decoder.keys, Mealy.run_append, hpause, List.nil_append]

/-- **Pause is ignored** exactly when skipping three bytes behind it goes unnoticed. The second
0xE1 of its code starts the count of bytes to skip over, where three of them have come already. -/
theorem pause_ignored_iff (k : Kbd) (before after : List UInt8)
    (hboundary : KeyBoundary (scancodeRun k before)) :
    PauseIgnored k before after ↔ PauseUnnoticed after := by
  obtain ⟨hevents, hstate⟩ := scancodeRun_boundary hboundary (pauseSequence ++ after)
  obtain ⟨hevents', hstate'⟩ := scancodeRun_boundary hboundary after
  rw [keys_pause, ← List.append_assoc] at hevents hstate
  rw [← keys_skip_iff]
  constructor
  · intro h
    have hsame := h.events
    rw [hevents, hevents', List.append_right_inj] at hsame
    rw [← press_actions (Decoder.keys ⟨false, 3⟩ after) (scancodeRun k before).machine.2, hsame,
      press_actions]
  · intro hkeys
    rw [hkeys] at hevents hstate
    have hsame := hstate.trans hstate'.symm
    have hevents_eq := hevents.trans hevents'.symm
    refine ⟨hevents_eq, ?_, congrArg KeyState.modifiers hsame, congrArg KeyState.locks hsame,
      congrArg KeyState.down hsame⟩
    rw [(scancodeRun_follows k _).2, (scancodeRun_follows k _).2]
    exact congrArg (List.foldl KbdQueues.push (keyboardInit k).queues) hevents_eq

/-- The left Meta key is skipped behind Pause, with two codes that no table has, but its `0xE0`
meets the same code again: nothing is noticed. -/
theorem pause_ignored_iff_meta :
    PauseIgnored sysZero.kbd [0x1E, 0x9E] [0xE0, 0x5B, 0x70, 0x70, 0x5B, 0x1E] := by
  refine (pause_ignored_iff sysZero.kbd [0x1E, 0x9E] _ ⟨rfl, rfl⟩).mpr ?_
  change plainKeys false [0xE0, 0x5B, 0x70, 0x70] ++ keyActions false 0x5B = keyActions true 0x5B
  decide

/-- An `A` after the Pause key is lost. -/
theorem pause_swallows_a : ¬PauseIgnored sysZero.kbd [] [0x1E] := by
  intro h
  exact absurd h.events (by decide)

end WaluOs
