import WaluOs.KeyboardQueues
import WaluOs.Mealy

/-!
# The keyboard driver as a machine

`keyboard_on_irq` decodes set-1 scancodes and keeps the state of the keys, and each
half is a small machine: `Decoder.step` turns scancodes into key actions, and
`KeyState.press` turns key actions into events. What the driver does with an event is
`KbdQueues.push`: the event joins one queue, its bytes the other, each as far as there
is room. `keyboardOnIrq_follows` says that this is all: over any stream of scancodes
the driver's state is that of the two machines, and its queues have been pushed what
they put out.
-/

namespace WaluOs

/-! ## Decoding -/

/-- A key goes down or comes up. It is what a person does, and what the scancodes are an encoding
of. -/
structure KeyAction : Type where
  /-- the key -/
  keycode : KeyCode
  /-- a break code -/
  released : Bool
  deriving DecidableEq, Repr

/-- What the driver remembers between two scancodes of one key. -/
structure Decoder : Type where
  /-- an `0xE0` is pending -/
  extended : Bool
  /-- bytes of a Pause sequence still to skip -/
  skip : ℕ
  deriving DecidableEq, Repr

/-- The key a scancode stands for, behind an `0xE0` or not. -/
def scancodeKey (extended : Bool) (scancode : UInt8) : KeyCode :=
  if extended then scancodeToKeyE0 (scancode &&& 0x7F) else scancodeToKey (scancode &&& 0x7F)

/-- What a scancode does to its key; nothing, if no table has it. -/
def keyActions (extended : Bool) (scancode : UInt8) : List KeyAction :=
  if scancodeKey extended scancode = .keyNone then []
  else [⟨scancodeKey extended scancode, scancode &&& 0x80 != 0⟩]

/-- One scancode. -/
def Decoder.step (d : Decoder) (scancode : UInt8) : Decoder × List KeyAction :=
  if scancode = 0xE0 then
    ({ d with extended := true }, [])
  else if scancode = 0xE1 then
    ({ d with skip := 5 }, [])
  else if d.skip > 0 then
    ({ d with skip := d.skip - 1 }, [])
  else
    ({ d with extended := false }, keyActions d.extended scancode)

/-! ## Keys -/

/-- The state of the keys: what a key means depends on it, and each key changes it. -/
structure KeyState : Type where
  /-- `kbd_modifiers` -/
  modifiers : UInt8
  /-- `kbd_locks` -/
  locks : UInt8
  /-- `kbd_key_down` -/
  down : KeyCode → Bool

/-- The bit of `kbd_modifiers` that a key sets and clears. -/
def modifierBit : KeyCode → UInt8
  | .keyLeftshift | .keyRightshift => kbdModShift
  | .keyLeftctrl | .keyRightctrl => kbdModCtrl
  | .keyLeftalt => kbdModAlt
  | .keyRightalt => kbdModAltgr
  | .keyLeftmeta | .keyRightmeta => kbdModMeta
  | _ => 0

/-- The bit of `kbd_locks` that a key toggles. -/
def lockBit : KeyCode → UInt8
  | .keyCapslock => kbdLockCaps
  | .keyNumlock => kbdLockNum
  | .keyScrolllock => kbdLockScroll
  | _ => 0

/-- The state after a key action. -/
def KeyState.update (s : KeyState) (a : KeyAction) : KeyState :=
  { modifiers :=
      if a.released then s.modifiers &&& ~~~modifierBit a.keycode
      else s.modifiers ||| modifierBit a.keycode
    locks := if a.released then s.locks else s.locks ^^^ lockBit a.keycode
    down := Function.update s.down a.keycode (!a.released) }

/-- The event of a key action. -/
def KeyState.event (s : KeyState) (a : KeyAction) : KeyEvent :=
  { keycode := a.keycode
    unicode :=
      if a.released then 0
      else kbdKeycodeToUnicode a.keycode (s.update a).modifiers (s.update a).locks
    modifiers := (s.update a).modifiers
    locks := (s.update a).locks
    pressed := !a.released
    isRepeat := if a.released then false else s.down a.keycode }

/-- One key action. -/
def KeyState.press (s : KeyState) (a : KeyAction) : KeyState × List KeyEvent :=
  (s.update a, [s.event a])

/-- Both machines, one behind the other. -/
abbrev keyboardStep : Decoder × KeyState → UInt8 → (Decoder × KeyState) × List KeyEvent :=
  Mealy.comp Decoder.step KeyState.press

/-! ## Queues -/

/-- The bytes that `kbd_emit_input_bytes` pushes for an event. -/
def inputBytes (event : KeyEvent) : List UInt8 :=
  if event.pressed = false then
    []
  else if event.unicode ≠ 0 then
    (if event.modifiers &&& (kbdModAlt ||| kbdModAltgr) ≠ 0 then [0x1B] else []) ++
      utf8Bytes event.unicode
  else
    kbdSpecialSequence event.keycode

/-- The two queues of the driver. They are apart from the decoding: whether they are full has no
influence on what is decoded. -/
structure KbdQueues : Type where
  /-- bytes -/
  bytes : KbdQueue UInt8
  /-- events -/
  events : KbdQueue KeyEvent

/-- An event joins the one queue, and its bytes the other. -/
def KbdQueues.push (q : KbdQueues) (event : KeyEvent) : KbdQueues :=
  ⟨(inputBytes event).foldl (kbdPush kbdByteQueueSize) q.bytes,
    kbdPush kbdEventQueueSize q.events event⟩

/-- The state of the machines in a driver. -/
def Kbd.machine (k : Kbd) : Decoder × KeyState :=
  (⟨k.kbdExtended, k.kbdE1Skip⟩, ⟨k.kbdModifiers, k.kbdLocks, k.kbdKeyDown⟩)

/-- The queues of a driver. -/
def Kbd.queues (k : Kbd) : KbdQueues := ⟨k.kbdByteQueue, k.kbdEventQueue⟩

/-! ## The driver -/

theorem kbdUpdateState_eq (k : Kbd) (keycode : KeyCode) (pressed : Bool) :
    kbdUpdateState k keycode pressed =
      { k with
        kbdModifiers :=
          if pressed then k.kbdModifiers ||| modifierBit keycode
          else k.kbdModifiers &&& ~~~modifierBit keycode
        kbdLocks := if pressed then k.kbdLocks ^^^ lockBit keycode else k.kbdLocks } := by
  cases pressed <;> cases keycode <;>
    simp [kbdUpdateState, kbdSetModifierBit, modifierBit, lockBit]

theorem kbdEmitSequence_eq (seq : List UInt8) :
    ∀ k : Kbd, kbdEmitSequence k seq =
      { k with kbdByteQueue := seq.foldl (kbdPush kbdByteQueueSize) k.kbdByteQueue } := by
  induction seq with
  | nil => exact fun _ => rfl
  | cons b seq ih => exact fun k => ih (kbdPushByte k b)

theorem kbdEmitInputBytes_eq (k : Kbd) (event : KeyEvent) :
    kbdEmitInputBytes k event = kbdEmitSequence k (inputBytes event) := by
  rw [kbdEmitInputBytes, inputBytes]
  split_ifs
  · rfl
  · exact kbdEmitUtf8_eq _ _
  · exact kbdEmitUtf8_eq _ _
  · rfl

/-- A key that has been looked up. -/
theorem kbdHandleKey_eq (k : Kbd) (a : KeyAction) :
    (kbdHandleKey k a.keycode a.released).machine = (k.machine.1, k.machine.2.update a) ∧
      (kbdHandleKey k a.keycode a.released).queues = k.queues.push (k.machine.2.event a) := by
  obtain ⟨keycode, released⟩ := a
  rw [kbdHandleKey, kbdEmitInputBytes_eq, kbdEmitSequence_eq, kbdUpdateState_eq]
  cases released <;> exact ⟨rfl, rfl⟩

/-- A scancode that is looked up: the prefix is used up, whether a table has the key or
not. -/
theorem keyboardOnIrq_lookup (k : Kbd) {scancode : UInt8} (h0 : scancode ≠ 0xE0)
    (h1 : scancode ≠ 0xE1) (hskip : k.kbdE1Skip = 0) :
    (keyboardOnIrq k scancode).machine =
        ((⟨false, 0⟩ : Decoder),
          (Mealy.run KeyState.press k.machine.2 (keyActions k.kbdExtended scancode)).1) ∧
      (keyboardOnIrq k scancode).queues =
        (Mealy.run KeyState.press k.machine.2
          (keyActions k.kbdExtended scancode)).2.foldl KbdQueues.push k.queues := by
  obtain ⟨bytes, events, extended, skip, modifiers, locks, down, rx⟩ := k
  obtain rfl : skip = 0 := hskip
  set k₁ : Kbd := ⟨bytes, events, false, 0, modifiers, locks, down, rx + 1⟩ with hk₁
  have hirq : keyboardOnIrq ⟨bytes, events, extended, 0, modifiers, locks, down, rx⟩ scancode =
      if scancodeKey extended scancode = .keyNone then k₁
      else kbdHandleKey k₁ (scancodeKey extended scancode) (scancode &&& 0x80 != 0) := by
    rw [keyboardOnIrq, if_neg h0, if_neg h1, if_neg (Nat.lt_irrefl 0)]
    cases extended <;> rfl
  rw [hirq, keyActions]
  split
  · exact ⟨rfl, rfl⟩
  · exact kbdHandleKey_eq k₁ ⟨scancodeKey extended scancode, scancode &&& 0x80 != 0⟩

/-- **The driver follows the machine**: its state is the machine's, and each event that
the machine puts out is pushed to the queues. -/
theorem keyboardOnIrq_follows :
    Mealy.Follows keyboardStep keyboardOnIrq Kbd.machine Kbd.queues KbdQueues.push := by
  have hboth : ∀ (k : Kbd) (scancode : UInt8),
      (keyboardOnIrq k scancode).machine = (keyboardStep k.machine scancode).1 ∧
        (keyboardOnIrq k scancode).queues =
          (keyboardStep k.machine scancode).2.foldl KbdQueues.push k.queues := by
    intro k scancode
    rw [keyboardStep, Mealy.comp, Decoder.step]
    by_cases h0 : scancode = 0xE0
    · rw [if_pos h0, keyboardOnIrq, if_pos h0]
      exact ⟨rfl, rfl⟩
    by_cases h1 : scancode = 0xE1
    · rw [if_neg h0, if_pos h1, keyboardOnIrq, if_neg h0, if_pos h1]
      exact ⟨rfl, rfl⟩
    rw [if_neg h0, if_neg h1]
    have hcode : k.machine.1.skip = k.kbdE1Skip := rfl
    rw [hcode]
    by_cases hskip : k.kbdE1Skip > 0
    · rw [if_pos hskip, keyboardOnIrq, if_neg h0, if_neg h1, if_pos hskip]
      exact ⟨rfl, rfl⟩
    · have hzero : k.kbdE1Skip = 0 := Nat.eq_zero_of_not_pos hskip
      have hlookup := keyboardOnIrq_lookup k h0 h1 hzero
      rw [if_neg hskip]
      refine ⟨hlookup.1.trans ?_, hlookup.2⟩
      rw [Kbd.machine, hzero]
  exact ⟨fun k sc => (hboth k sc).1, fun k sc => (hboth k sc).2⟩

/-! ## Streams of events -/

/-- A stream of events, queue by queue. -/
theorem KbdQueues.foldl_push (events : List KeyEvent) :
    ∀ q : KbdQueues, events.foldl KbdQueues.push q =
      ⟨(events.flatMap inputBytes).foldl (kbdPush kbdByteQueueSize) q.bytes,
        events.foldl (kbdPush kbdEventQueueSize) q.events⟩ := by
  induction events with
  | nil => exact fun _ => rfl
  | cons e events ih =>
    intro q
    rw [List.foldl_cons, ih, List.flatMap_cons, List.foldl_append, List.foldl_cons]
    rfl

/-- A scancode is at most one key action. -/
theorem Decoder.step_cases (d : Decoder) (scancode : UInt8) :
    (d.step scancode).2 = [] ∨ ∃ a, (d.step scancode).2 = [a] := by
  rw [Decoder.step, keyActions]
  split_ifs
  · exact Or.inl rfl
  · exact Or.inl rfl
  · exact Or.inl rfl
  · exact Or.inl rfl
  · exact Or.inr ⟨_, rfl⟩

/-- An event carries the modifiers that the key leaves behind. -/
theorem keyboardStep_modifiers (m : Decoder × KeyState) (scancode : UInt8) :
    ∀ e ∈ (keyboardStep m scancode).2, e.modifiers = (keyboardStep m scancode).1.2.modifiers := by
  rw [keyboardStep, Mealy.comp]
  intro e he
  rcases Decoder.step_cases m.1 scancode with h | ⟨a, h⟩
  · rw [h] at he
    cases he
  · rw [h, Mealy.run_singleton] at he ⊢
    rw [List.mem_singleton.mp he]
    rfl

/-! ## Runs -/

/-- A stream of scancodes, from `keyboard_init` on, with nobody reading the queues. -/
def scancodeRun (k : Kbd) (scancodes : List UInt8) : Kbd :=
  scancodes.foldl keyboardOnIrq (keyboardInit k)

theorem scancodeRun_append (k : Kbd) (xs ys : List UInt8) :
    scancodeRun k (xs ++ ys) = ys.foldl keyboardOnIrq (scancodeRun k xs) :=
  List.foldl_append

/-- No key is down, and nothing is pending. -/
def machineStart : Decoder × KeyState := (⟨false, 0⟩, ⟨0, 0, fun _ => false⟩)

/-- A run is a run of the machine, with its events pushed to empty queues. -/
theorem scancodeRun_follows (k : Kbd) (scancodes : List UInt8) :
    (scancodeRun k scancodes).machine = (Mealy.run keyboardStep machineStart scancodes).1 ∧
      (scancodeRun k scancodes).queues =
        (Mealy.run keyboardStep machineStart scancodes).2.foldl KbdQueues.push
          (keyboardInit k).queues :=
  keyboardOnIrq_follows.foldl scancodes (keyboardInit k)

/-! ## A batch of pushes -/

universe u

variable {α : Type u} {n : ℕ}

/-- The room in a queue, of which one slot is never filled. -/
def KbdQueue.free (n : ℕ) (q : KbdQueue α) : ℕ := n - 1 - q.ring.count n

/-- `q'` is `q` after it has taken the front of a batch, as far as there was room. Nobody reads
while an interrupt pushes, so once a push is refused the rest of the batch is refused as well. -/
structure KbdQueue.TakesFront (n : ℕ) (q q' : KbdQueue α) (batch : List α) : Prop where
  /-- indices stay in range -/
  inRange : q'.ring.InRange n
  /-- what fits joins the queue -/
  contents : q'.ring.contents n = q.ring.contents n ++ batch.take (q.free n)
  /-- and the history -/
  accepted : q'.accepted = q.accepted ++ batch.take (q.free n)
  /-- what does not is refused -/
  refused : q'.refused = q.refused + (batch.length - q.free n)
  /-- and counted -/
  dropCount : q'.dropCount = q.dropCount + UInt64.ofNat (batch.length - q.free n)

variable {q : KbdQueue α}

theorem KbdQueue.free_full (hq : q.ring.InRange n) (h : (q.ring.head + 1) % n = q.ring.tail) :
    q.free n = 0 := by
  have hcount := hq.full_iff.mp h
  rw [free]
  omega

theorem KbdQueue.free_push (hq : q.ring.InRange n) (h : (q.ring.head + 1) % n ≠ q.ring.tail)
    (x : α) : q.free n = (kbdPush n q x).free n + 1 := by
  have hpush := hq.count_push h x
  have hlt := (hq.push x).count_lt
  rw [kbdPush_push h, free, free]
  dsimp only
  omega

/-- Pushing a batch element by element stores its front: once an element finds no room, none
behind it does, since nothing is taken out between two of them. -/
theorem kbdPushes_front (batch : List α) : ∀ {q : KbdQueue α}, q.ring.InRange n →
    q.TakesFront n (batch.foldl (kbdPush n) q) batch := by
  induction batch with
  | nil =>
    intro q hq
    exact ⟨hq, by simp, by simp, by simp, by simp⟩
  | cons x batch ih =>
    intro q hq
    rw [List.foldl_cons]
    by_cases hfull : (q.ring.head + 1) % n = q.ring.tail
    · -- nothing fits from here on
      have hpush := kbdPush_full hfull x
      have hfree : (kbdPush n q x).free n = q.free n := by rw [hpush, KbdQueue.free, KbdQueue.free]
      obtain ⟨hr, hc, ha, hx, hd⟩ := ih (q := kbdPush n q x) (by rw [hpush]; exact hq)
      rw [hfree, KbdQueue.free_full hq hfull] at hc ha hx hd
      refine ⟨hr, ?_, ?_, ?_, ?_⟩ <;> rw [KbdQueue.free_full hq hfull]
      · rw [hc, hpush]
        rfl
      · rw [ha, hpush]
        rfl
      · rw [hx, hpush]
        exact Nat.add_right_comm ..
      · rw [hd, hpush]
        dsimp only
        rw [Nat.sub_zero, Nat.sub_zero, List.length_cons, UInt64.ofNat_add, UInt64.add_assoc,
          UInt64.add_comm 1]
        rfl
    · have hpush := kbdPush_push hfull x
      have hroom := KbdQueue.free_push hq hfull x
      obtain ⟨hr, hc, ha, hx, hd⟩ := ih (q := kbdPush n q x) (by rw [hpush]; exact hq.push x)
      refine ⟨hr, ?_, ?_, ?_, ?_⟩ <;> rw [hroom]
      · rw [hc, hpush, List.take_succ_cons, hq.contents_push hfull, List.append_assoc,
          List.singleton_append]
      · rw [ha, hpush, List.take_succ_cons, List.append_assoc, List.singleton_append]
      · rw [hx, hpush, List.length_cons, Nat.add_sub_add_right]
      · rw [hd, hpush, List.length_cons, Nat.add_sub_add_right]

/-- If none of the pushes is refused, all of them are in the queue. -/
theorem kbdPushes_fit (xs : List α) (hq : q.ring.InRange n)
    (hrefused : (xs.foldl (kbdPush n) q).refused = q.refused) :
    (xs.foldl (kbdPush n) q).ring.InRange n ∧
      (xs.foldl (kbdPush n) q).ring.contents n = q.ring.contents n ++ xs ∧
      (xs.foldl (kbdPush n) q).dropCount = q.dropCount := by
  obtain ⟨hr, hc, -, hx, hd⟩ := kbdPushes_front xs hq
  have hroom : xs.length - q.free n = 0 := Nat.add_eq_left.mp (hx.symm.trans hrefused)
  rw [List.take_of_length_le (Nat.sub_eq_zero_iff_le.mp hroom)] at hc
  rw [hroom] at hd
  exact ⟨hr, hc, hd.trans (UInt64.add_zero _)⟩

theorem kbdPushes_refused_le (xs : List α) :
    ∀ q : KbdQueue α, q.refused ≤ (xs.foldl (kbdPush n) q).refused := by
  induction xs with
  | nil => exact fun _ => le_rfl
  | cons x xs ih =>
    intro q
    obtain ⟨m, hm, -⟩ := (kbdPush_grows (n := n) q x).counted
    have hrest := ih (kbdPush n q x)
    rw [List.foldl_cons]
    omega

/-! ## Pushes and pops -/

/-- Every element of a list of pushes was accepted or refused: the accepted ones are some of the
list, in its order, and together with the refusals they are as many. -/
structure KbdQueue.Answers (q : KbdQueue α) (pushed : List α) : Prop where
  /-- in the order of the pushes -/
  accepted : q.accepted.Sublist pushed
  /-- none is missing -/
  each : q.accepted.length + q.refused = pushed.length

theorem KbdQueue.Answers.push {pushed : List α} (h : q.Answers pushed) (x : α) :
    (kbdPush n q x).Answers (pushed ++ [x]) := by
  have heach := h.each
  by_cases hfull : (q.ring.head + 1) % n = q.ring.tail
  · rw [kbdPush_full hfull]
    refine ⟨h.accepted.trans (List.sublist_append_left _ _), ?_⟩
    rw [List.length_append, List.length_singleton, ← heach]
    rfl
  · rw [kbdPush_push hfull]
    refine ⟨h.accepted.append (List.Sublist.refl [x]), ?_⟩
    simp only [List.length_append, List.length_singleton]
    omega

theorem KbdQueue.Answers.pushes {pushed : List α} (batch : List α) (h : q.Answers pushed) :
    (batch.foldl (kbdPush n) q).Answers (pushed ++ batch) := by
  induction batch generalizing q pushed with
  | nil => rwa [List.append_nil]
  | cons x batch ih =>
    rw [List.append_cons]
    exact ih (h.push x)

/-- A step of a pop pushes nothing. -/
theorem KbdQueue.Answers.popStep {pushed : List α} (h : q.Answers pushed) (popped : List α)
    (stage : PopStage α) : (popStep n q popped stage).1.Answers pushed := by
  cases stage <;> exact ⟨h.accepted, h.each⟩

/-- The scancodes of a run. -/
def irqScancodes : List KbdAct → List UInt8
  | [] => []
  | .irq scancode :: acts => scancode :: irqScancodes acts
  | .popChar :: acts => irqScancodes acts
  | .popEvent :: acts => irqScancodes acts

/-- What the interrupts of a run push to the event queue: the events that its scancodes are
decoded to. What the consumer does in between has no influence on them. -/
def pushedEvents (acts : List KbdAct) : List KeyEvent :=
  (Mealy.run keyboardStep machineStart (irqScancodes acts)).2

/-- What they push to the byte queue: the bytes of these events, one after the other. -/
def pushedBytes (acts : List KbdAct) : List UInt8 := (pushedEvents acts).flatMap inputBytes

/-- Both queues of a run, when `events` were pushed. What the queues say of themselves is compared
with what the scancodes mean. -/
structure KbdSystem.Answers (s : KbdSystem) (events : List KeyEvent) : Prop where
  /-- bytes -/
  bytes : s.kbd.kbdByteQueue.Answers (events.flatMap inputBytes)
  /-- events -/
  events : s.kbd.kbdEventQueue.Answers events

/-- An interrupt pushes what the machine puts out. -/
theorem KbdSystem.Answers.irq {s : KbdSystem} {events : List KeyEvent} (h : s.Answers events)
    (scancode : UInt8) : (kbdStep s (.irq scancode)).Answers
      (events ++ (keyboardStep s.kbd.machine scancode).2) := by
  have houtput := keyboardOnIrq_follows.output s.kbd scancode
  rw [KbdQueues.foldl_push] at houtput
  have hbytes : (keyboardOnIrq s.kbd scancode).kbdByteQueue = _ :=
    congrArg KbdQueues.bytes houtput
  have hevents : (keyboardOnIrq s.kbd scancode).kbdEventQueue = _ :=
    congrArg KbdQueues.events houtput
  refine ⟨?_, ?_⟩
  · rw [List.flatMap_append]
    exact hbytes ▸ h.bytes.pushes _
  · exact hevents ▸ h.events.pushes _

theorem kbdRun_answers (acts : List KbdAct) : ∀ {s : KbdSystem} {events : List KeyEvent},
    s.Answers events → (kbdRun s acts).Answers
      (events ++ (Mealy.run keyboardStep s.kbd.machine (irqScancodes acts)).2) := by
  induction acts with
  | nil => exact fun {s events} h => by rwa [irqScancodes, Mealy.run_nil, List.append_nil]
  | cons act acts ih =>
    intro s events h
    cases act with
    | irq scancode =>
      have hrest := ih (h.irq scancode)
      have hstate : (kbdStep s (.irq scancode)).kbd.machine =
          (keyboardStep s.kbd.machine scancode).1 := keyboardOnIrq_follows.state s.kbd scancode
      rw [hstate, List.append_assoc] at hrest
      exact hrest
    | popChar => exact ih (s := kbdStep s .popChar) ⟨h.bytes.popStep _ _, h.events⟩
    | popEvent => exact ih (s := kbdStep s .popEvent) ⟨h.bytes, h.events.popStep _ _⟩

/-- **No interleaving of interrupts with the consumer's steps loses, repeats or reorders an
element**: of what the interrupts push, each is accepted and comes out in its turn, or is refused
and counted. -/
theorem kbdRun_faithful (k : Kbd) (acts : List KbdAct) :
    (QueueFaithful kbdByteQueueSize (kbdRun (kbdStart k) acts).kbd.kbdByteQueue
        (kbdRun (kbdStart k) acts).poppedBytes ∧
      (kbdRun (kbdStart k) acts).kbd.kbdByteQueue.Answers (pushedBytes acts)) ∧
    QueueFaithful kbdEventQueueSize (kbdRun (kbdStart k) acts).kbd.kbdEventQueue
        (kbdRun (kbdStart k) acts).poppedEvents ∧
      (kbdRun (kbdStart k) acts).kbd.kbdEventQueue.Answers (pushedEvents acts) := by
  have hok := kbdRun_ok k acts
  have hempty : (kbdStart k).Answers [] := ⟨⟨.slnil, rfl⟩, ⟨.slnil, rfl⟩⟩
  have hanswers := kbdRun_answers acts hempty
  exact ⟨⟨hok.bytes.faithful, hanswers.bytes⟩, hok.events.faithful, hanswers.events⟩

end WaluOs
