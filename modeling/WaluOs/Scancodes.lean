import Mathlib.Data.List.Induction
import Mathlib.Data.List.Infix
import WaluOs.KeyboardDecode
import WaluOs.Shell

/-!
# What the keyboard sends

A key has one code, in one of the two tables (`setOneCode`), and what the keyboard sends
for a make or break of it is that code behind an `0xE0`, if the table is the extended one
(`Sent.encode`). A code that no table has changes nothing but the prefix. The decoder is
back where it was after each of them, so a stream of them is decoded one by one.

The events are read by `keyboard_pop_event` between any two interrupts; the event queue
only delays them (`eventRun_reads`).
-/

namespace WaluOs

/-! ## Codes -/

/-- The code of a key: whether it is an extended one, and its byte. -/
def setOneCode (key : KeyCode) : Option (Bool × UInt8) :=
  match scancodeToKeyTable.find? (·.2 = key) with
  | some p => some (false, p.1)
  | none =>
    match scancodeToKeyE0Table.find? (·.2 = key) with
    | some p => some (true, p.1)
    | none => none

/-- What the keyboard sends: the codes of keys the driver knows, and those of others. -/
inductive Sent : Type where
  /-- a make or break code -/
  | key : KeyAction → Sent
  /-- a code that no table has, behind an `0xE0` or not -/
  | unmapped : Bool → UInt8 → Sent
  deriving DecidableEq, Repr

/-- The prefix of an extended code. -/
def extendedPrefix (extended : Bool) : List UInt8 := if extended then [0xE0] else []

/-- The bytes, by the two tables: a prefix for the second one, and the high bit for a break code.
-/
def Sent.encode : Sent → List UInt8
  | .key a =>
    match setOneCode a.keycode with
    | some (extended, code) => extendedPrefix extended ++ [if a.released then code ||| 0x80 else code]
    | none => []
  | .unmapped extended scancode => extendedPrefix extended ++ [scancode]

/-- What is sent is a key of the tables, or a code outside them. A prefix byte alone is no code.
-/
def Sent.Valid : Sent → Prop
  | .key a => (setOneCode a.keycode).isSome = true
  | .unmapped extended scancode =>
    scancode ≠ 0xE0 ∧ scancode ≠ 0xE1 ∧ scancodeKey extended scancode = .keyNone

instance (x : Sent) : Decidable x.Valid := by
  cases x with
  | key a => exact inferInstanceAs (Decidable ((setOneCode a.keycode).isSome = true))
  | unmapped extended scancode =>
    exact inferInstanceAs (Decidable (scancode ≠ 0xE0 ∧ scancode ≠ 0xE1 ∧
      scancodeKey extended scancode = .keyNone))

/-- The key action, if it is one. A code that no table has means nothing. -/
def Sent.actions : Sent → List KeyAction
  | .key a => [a]
  | .unmapped _ _ => []

/-- The table a code is looked up in. -/
def codeTable (extended : Bool) : List (UInt8 × KeyCode) :=
  if extended then scancodeToKeyE0Table else scancodeToKeyTable

/-- A code is in its table. -/
theorem setOneCode_mem {key : KeyCode} {extended : Bool} {code : UInt8}
    (h : setOneCode key = some (extended, code)) : (code, key) ∈ codeTable extended := by
  have hfound : ∀ {table : List (UInt8 × KeyCode)} {p : UInt8 × KeyCode},
      table.find? (·.2 = key) = some p → (p.1, key) ∈ table := by
    intro table p hp
    have hkey := List.find?_some hp
    rw [← of_decide_eq_true hkey]
    exact List.mem_of_find?_eq_some hp
  rw [setOneCode] at h
  split at h
  · rename_i p hp
    cases h
    exact hfound hp
  · split at h
    · rename_i p hp
      cases h
      exact hfound hp
    · cases h

/-- A code is what `setOneCode` says, and no prefix byte, also with the release bit. -/
theorem setOneCode_spec {key : KeyCode} {extended : Bool} {code : UInt8}
    (h : setOneCode key = some (extended, code)) (released : Bool) :
    (if released then code ||| 0x80 else code) ≠ 0xE0 ∧
      (if released then code ||| 0x80 else code) ≠ 0xE1 ∧
      keyActions extended (if released then code ||| 0x80 else code) = [⟨key, released⟩] := by
  have hall : ∀ extended released : Bool, ∀ p ∈ codeTable extended,
      (if released then p.1 ||| 0x80 else p.1) ≠ 0xE0 ∧
        (if released then p.1 ||| 0x80 else p.1) ≠ 0xE1 ∧
        keyActions extended (if released then p.1 ||| 0x80 else p.1) = [⟨p.2, released⟩] := by
    decide +kernel
  exact hall extended released (code, key) (setOneCode_mem h)

/-- A key that is looked up is in its table. -/
theorem scancodeKey_mem {extended : Bool} {code : UInt8} (hcode : code < 0x80)
    (hkey : scancodeKey extended code ≠ .keyNone) :
    (code, scancodeKey extended code) ∈ codeTable extended := by
  have hmask : code &&& 0x7F = code := by
    refine UInt8.toNat_inj.mp ?_
    rw [UInt8.toNat_and]
    exact (Nat.and_two_pow_sub_one_eq_mod _ 7).trans
      (Nat.mod_eq_of_lt (UInt8.lt_iff_toNat_lt.mp hcode))
  have hfound : ∀ table : List (UInt8 × KeyCode), (table.lookup code).getD .keyNone ≠ .keyNone →
      (code, (table.lookup code).getD .keyNone) ∈ table := by
    intro table hne
    cases hlookup : table.lookup code with
    | none => exact absurd (by rw [hlookup]; rfl) hne
    | some key =>
      obtain ⟨before, after, htable, -⟩ := List.lookup_eq_some_iff.mp hlookup
      rw [htable]
      exact List.mem_append_right _ List.mem_cons_self
  rw [scancodeKey, scancodeToKeyE0, scancodeToKey, hmask] at hkey ⊢
  cases extended
  · exact hfound _ hkey
  · exact hfound _ hkey

/-- **Both tables together are injective**: no other code stands for a key. -/
theorem setOneCode_unique {extended : Bool} {code : UInt8} (hcode : code < 0x80)
    (hkey : scancodeKey extended code ≠ .keyNone) :
    setOneCode (scancodeKey extended code) = some (extended, code) := by
  have hall : ∀ extended : Bool, ∀ p ∈ codeTable extended,
      setOneCode p.2 = some (extended, p.1) := by decide +kernel
  exact hall extended _ (scancodeKey_mem hcode hkey)

/-! ## Decoding -/

/-- A looked-up code, behind its prefix. -/
theorem Decoder.run_lookup (extended : Bool) {scancode : UInt8} (h0 : scancode ≠ 0xE0)
    (h1 : scancode ≠ 0xE1) :
    Mealy.run Decoder.step ⟨false, 0⟩ (extendedPrefix extended ++ [scancode]) =
      (⟨false, 0⟩, keyActions extended scancode) := by
  have hstep : ∀ pending : Bool, Decoder.step ⟨pending, 0⟩ scancode =
      (⟨false, 0⟩, keyActions pending scancode) := by
    intro pending
    rw [Decoder.step, if_neg h0, if_neg h1, if_neg (Nat.lt_irrefl 0)]
  cases extended with
  | false =>
    rw [extendedPrefix, if_neg Bool.false_ne_true, List.nil_append, Mealy.run_singleton, hstep]
  | true =>
    have hprefix : Decoder.step ⟨false, 0⟩ 0xE0 = (⟨true, 0⟩, []) := rfl
    rw [extendedPrefix, if_pos rfl, List.cons_append, List.nil_append, Mealy.run_cons,
      Mealy.run_singleton, hprefix, hstep, List.nil_append]

/-- One thing sent. -/
theorem Decoder.run_encode {x : Sent} (h : x.Valid) :
    Mealy.run Decoder.step ⟨false, 0⟩ x.encode = (⟨false, 0⟩, x.actions) := by
  cases x with
  | key a =>
    obtain ⟨⟨extended, code⟩, hcode⟩ := Option.isSome_iff_exists.mp h
    obtain ⟨h0, h1, hkey⟩ := setOneCode_spec hcode a.released
    rw [Sent.encode, hcode]
    exact (Decoder.run_lookup extended h0 h1).trans (congrArg (Prod.mk _) hkey)
  | unmapped extended scancode =>
    obtain ⟨h0, h1, hnone⟩ := h
    refine (Decoder.run_lookup extended h0 h1).trans ?_
    rw [keyActions, if_pos hnone, Sent.actions]

/-- A stream is decoded into the key actions it was made of. -/
theorem decoder_inverts {sent : List Sent} (h : ∀ x ∈ sent, x.Valid) :
    Mealy.run Decoder.step ⟨false, 0⟩ (sent.flatMap Sent.encode) =
      (⟨false, 0⟩, sent.flatMap Sent.actions) :=
  Mealy.run_code fun x hx => Decoder.run_encode (h x hx)

/-! ## Events -/

/-- The key is down after these actions, that is its last action is a press. -/
def heldAfter (actions : List KeyAction) (key : KeyCode) : Bool :=
  actions.foldl (fun held a => if a.keycode = key then !a.released else held) false

theorem heldAfter_snoc (actions : List KeyAction) (a : KeyAction) (key : KeyCode) :
    heldAfter (actions ++ [a]) key =
      if a.keycode = key then !a.released else heldAfter actions key := by
  rw [heldAfter, List.foldl_append]
  rfl

/-- `events` reports `actions`, one by one: a reader of the event queue learns what was done at
the keyboard, and nothing else. -/
structure Reports (actions : List KeyAction) (events : List KeyEvent) : Prop where
  /-- one event for each -/
  length : events.length = actions.length
  /-- the key, make or break, and whether it is a make of a key that was down already -/
  event : ∀ (i : ℕ) (a : KeyAction) (e : KeyEvent), actions[i]? = some a → events[i]? = some e →
    e.keycode = a.keycode ∧ e.pressed = (!a.released) ∧
      e.isRepeat = (!a.released && heldAfter (actions.take i) a.keycode)

/-- One more action. -/
theorem Reports.snoc {actions : List KeyAction} {events : List KeyEvent} (h : Reports actions events)
    {a : KeyAction} {e : KeyEvent} (hkey : e.keycode = a.keycode)
    (hpressed : e.pressed = (!a.released))
    (hrepeat : e.isRepeat = (!a.released && heldAfter actions a.keycode)) :
    Reports (actions ++ [a]) (events ++ [e]) := by
  refine ⟨by rw [List.length_append, List.length_append, h.length]; rfl, ?_⟩
  intro i b f hb hf
  -- Before, at, and behind the new action.
  rcases Nat.lt_trichotomy i actions.length with hlt | rfl | hgt
  · rw [List.getElem?_append_left hlt] at hb
    rw [List.getElem?_append_left (h.length ▸ hlt)] at hf
    rw [List.take_append_of_le_length hlt.le]
    exact h.event i b f hb hf
  · rw [List.getElem?_concat_length] at hb
    rw [← h.length, List.getElem?_concat_length] at hf
    obtain rfl := Option.some.inj hb
    obtain rfl := Option.some.inj hf
    rw [List.take_left]
    exact ⟨hkey, hpressed, hrepeat⟩
  · rw [List.getElem?_eq_none (by rw [List.length_append]; exact hgt)] at hb
    cases hb

/-- The key state knows which keys are held, and its events report the actions. -/
theorem keyState_reports (actions : List KeyAction) :
    (∀ key, (Mealy.run KeyState.press machineStart.2 actions).1.down key = heldAfter actions key) ∧
      Reports actions (Mealy.run KeyState.press machineStart.2 actions).2 := by
  induction actions using List.reverseRecOn with
  | nil => exact ⟨fun _ => rfl, rfl, fun i a e ha => by cases ha⟩
  | append_singleton actions a ih =>
    obtain ⟨hdown, hreports⟩ := ih
    rw [Mealy.run_append, Mealy.run_singleton]
    refine ⟨fun key => ?_, hreports.snoc rfl rfl ?_⟩
    · rw [heldAfter_snoc, ← hdown key]
      by_cases hkey : a.keycode = key
      · subst hkey
        rw [if_pos rfl]
        exact Function.update_self ..
      · rw [if_neg hkey]
        exact Function.update_of_ne (Ne.symm hkey) _ _
    · rw [← hdown a.keycode]
      cases hreleased : a.released with
      | true => exact if_pos hreleased
      | false => exact if_neg (ne_true_of_eq_false hreleased)

/-- The events of a stream. -/
theorem keyboardStep_reports {sent : List Sent} (h : ∀ x ∈ sent, x.Valid) :
    Reports (sent.flatMap Sent.actions)
      (Mealy.run keyboardStep machineStart (sent.flatMap Sent.encode)).2 := by
  rw [keyboardStep, machineStart, Mealy.run_comp, decoder_inverts h]
  exact (keyState_reports _).2

/-! ## The event queue -/

/-- An interrupt, or a call of `keyboard_pop_event`, in any order. -/
inductive EventOp : Type where
  /-- `keyboard_on_irq` -/
  | irq : UInt8 → EventOp
  /-- `keyboard_pop_event` -/
  | popEvent : EventOp
  deriving DecidableEq, Repr

/-- A driver, and the events that have been popped from it. -/
structure EventRun : Type where
  /-- the driver -/
  kbd : Kbd
  /-- the events popped, oldest first -/
  popped : List KeyEvent

/-- One of them. -/
def eventStep (r : EventRun) : EventOp → EventRun
  | .irq scancode => { r with kbd := keyboardOnIrq r.kbd scancode }
  | .popEvent =>
    let p := keyboardPopEvent r.kbd
    ⟨p.1, r.popped ++ p.2.toList⟩

/-- A run, from `keyboard_init` on. -/
def eventRun (k : Kbd) (ops : List EventOp) : EventRun :=
  ops.foldl eventStep ⟨keyboardInit k, []⟩

/-- The scancodes of a run. The pops between them are the consumer's affair. -/
def scancodesOf (ops : List EventOp) : List UInt8 :=
  ops.filterMap fun
    | .irq scancode => some scancode
    | .popEvent => none

/-- The event queue is not full. -/
def EventRoom (r : EventRun) : Prop :=
  (r.kbd.kbdEventQueue.ring.head + 1) % kbdEventQueueSize ≠ r.kbd.kbdEventQueue.ring.tail

instance (r : EventRun) : Decidable (EventRoom r) := inferInstanceAs (Decidable (_ ≠ _))

/-- No interrupt finds the event queue full. Otherwise an event is lost and counted, and the
reader cannot know which. -/
def NeverFull (k : Kbd) (ops : List EventOp) : Prop :=
  ∀ p scancode, p ++ [.irq scancode] <+: ops → EventRoom (eventRun k p)

/-- Call `keyboard_pop_event` until it returns false, at most `n` times. -/
def popEvents : ℕ → Kbd → List KeyEvent
  | 0, _ => []
  | n + 1, k =>
    match keyboardPopEvent k with
    | (_, none) => []
    | (k, some e) => e :: popEvents n k

/-- All events of a run: those popped, and those that are popped when it is over. -/
def eventsRead (k : Kbd) (ops : List EventOp) : List KeyEvent :=
  (eventRun k ops).popped ++ popEvents kbdEventQueueSize (eventRun k ops).kbd

/-- Popping everything gives the contents of the queue. -/
theorem popEvents_contents (n : ℕ) :
    ∀ {k : Kbd}, k.kbdEventQueue.ring.InRange kbdEventQueueSize →
      (k.kbdEventQueue.ring.contents kbdEventQueueSize).length ≤ n →
      popEvents n k = k.kbdEventQueue.ring.contents kbdEventQueueSize := by
  induction n with
  | zero => exact fun _ hlen => (List.length_eq_zero_iff.mp (Nat.le_zero.mp hlen)).symm
  | succ n ih =>
    intro k hk hlen
    rw [popEvents, keyboardPopEvent]
    by_cases hempty : k.kbdEventQueue.ring.tail = k.kbdEventQueue.ring.head
    · rw [if_pos hempty, hk.empty_iff.mp hempty]
    · have hpop := hk.contents_pop hempty
      rw [hpop, List.length_cons] at hlen
      rw [if_neg hempty, hpop]
      exact congrArg _ (ih (k := { k with kbdEventQueue := { k.kbdEventQueue with ring := _ } })
        hk.pop (Nat.le_of_succ_le_succ hlen))

/-- `r` has produced `events`: some have been popped, and the others are in the queue. -/
structure Produced (r : EventRun) (m : Decoder × KeyState) (events : List KeyEvent) : Prop where
  /-- the machine -/
  machine : r.kbd.machine = m
  /-- the queue is sound -/
  inRange : r.kbd.kbdEventQueue.ring.InRange kbdEventQueueSize
  /-- nothing is lost -/
  events : r.popped ++ r.kbd.kbdEventQueue.ring.contents kbdEventQueueSize = events

/-- An interrupt that finds room. The decoder goes one step, and the event that comes of it stands
at the end of what was read and what waits. -/
theorem Produced.irq {r : EventRun} {m : Decoder × KeyState} {events : List KeyEvent}
    (h : Produced r m events) (hroom : EventRoom r) (scancode : UInt8) :
    Produced (eventStep r (.irq scancode)) (keyboardStep m scancode).1
      (events ++ (keyboardStep m scancode).2) := by
  have hstate := keyboardOnIrq_follows.state r.kbd scancode
  have houtput := keyboardOnIrq_follows.output r.kbd scancode
  rw [h.machine] at hstate houtput
  rw [KbdQueues.foldl_push] at houtput
  have hqueue : (keyboardOnIrq r.kbd scancode).kbdEventQueue =
      (keyboardStep m scancode).2.foldl (kbdPush kbdEventQueueSize) r.kbd.kbdEventQueue :=
    congrArg KbdQueues.events houtput
  -- A scancode makes at most one event, so room for one is enough.
  have hnew : (keyboardStep m scancode).2 = [] ∨ ∃ e, (keyboardStep m scancode).2 = [e] := by
    rw [keyboardStep, Mealy.comp]
    rcases Decoder.step_cases m.1 scancode with hnone | ⟨a, hone⟩
    · rw [hnone]
      exact Or.inl rfl
    · rw [hone, Mealy.run_singleton]
      exact Or.inr ⟨_, rfl⟩
  refine ⟨hstate, ?_, ?_⟩
  · change (keyboardOnIrq r.kbd scancode).kbdEventQueue.ring.InRange kbdEventQueueSize
    rw [hqueue]
    rcases hnew with hnone | ⟨e, hone⟩
    · rw [hnone]
      exact h.inRange
    · rw [hone, List.foldl_cons, List.foldl_nil, kbdPush_push hroom]
      exact h.inRange.push e
  · change r.popped ++ (keyboardOnIrq r.kbd scancode).kbdEventQueue.ring.contents _ = _
    rw [hqueue]
    rcases hnew with hnone | ⟨e, hone⟩
    · rw [hnone, List.append_nil]
      exact h.events
    · rw [hone, List.foldl_cons, List.foldl_nil, kbdPush_push hroom]
      dsimp only
      rw [h.inRange.contents_push hroom, ← List.append_assoc, h.events]

/-- A call of `keyboard_pop_event`. -/
theorem Produced.popEvent {r : EventRun} {m : Decoder × KeyState} {events : List KeyEvent}
    (h : Produced r m events) : Produced (eventStep r .popEvent) m events := by
  rw [eventStep, keyboardPopEvent]
  by_cases hempty : r.kbd.kbdEventQueue.ring.tail = r.kbd.kbdEventQueue.ring.head
  · rw [if_pos hempty]
    refine ⟨h.machine, h.inRange, ?_⟩
    rw [Option.toList_none, List.append_nil]
    exact h.events
  · have hpop := h.inRange.contents_pop hempty
    rw [if_neg hempty]
    refine ⟨h.machine, h.inRange.pop, ?_⟩
    rw [← h.events, hpop, Option.toList_some, List.append_assoc]
    rfl

/-- A run that never finds the queue full loses no event. -/
theorem eventRun_produced (k : Kbd) (ops : List EventOp) :
    NeverFull k ops →
      Produced (eventRun k ops) (Mealy.run keyboardStep machineStart (scancodesOf ops)).1
        (Mealy.run keyboardStep machineStart (scancodesOf ops)).2 := by
  induction ops using List.reverseRecOn with
  | nil =>
    intro _
    exact ⟨rfl, SlotRing.inRange_zero (by decide) _, SlotRing.contents_zero _ _⟩
  | append_singleton ops op ih =>
    intro hroom
    have hbefore := ih fun p scancode hp => hroom p scancode (hp.trans (List.prefix_append ..))
    have hrun : eventRun k (ops ++ [op]) = eventStep (eventRun k ops) op := List.foldl_append
    rw [hrun]
    cases op with
    | irq scancode =>
      have hcodes : scancodesOf (ops ++ [.irq scancode]) = scancodesOf ops ++ [scancode] :=
        List.filterMap_append
      rw [hcodes, Mealy.run_append, Mealy.run_singleton]
      exact hbefore.irq (hroom ops scancode (List.prefix_refl _)) scancode
    | popEvent =>
      have hcodes : scancodesOf (ops ++ [.popEvent]) = scancodesOf ops :=
        List.filterMap_append.trans (List.append_nil _)
      rw [hcodes]
      exact hbefore.popEvent

/-- **Decoding inverts encoding**: whatever the keyboard sends, and whenever the events are
read, there is one event for each key action, in order. -/
theorem scancodes_report (k : Kbd) (sent : List Sent) (hvalid : ∀ x ∈ sent, x.Valid)
    (ops : List EventOp) (hops : scancodesOf ops = sent.flatMap Sent.encode)
    (hroom : NeverFull k ops) : Reports (sent.flatMap Sent.actions) (eventsRead k ops) := by
  have h := eventRun_produced k ops hroom
  have hlen : ((eventRun k ops).kbd.kbdEventQueue.ring.contents kbdEventQueueSize).length ≤
      kbdEventQueueSize := by
    rw [SlotRing.length_contents]
    exact h.inRange.count_lt.le
  rw [eventsRead, popEvents_contents _ h.inRange hlen, h.events, hops]
  exact keyboardStep_reports hvalid

/-- `A` goes down, a code that no table has behind an `0xE0`, and right Ctrl goes down and
comes up; one event is read in between. -/
theorem scancodes_report_a :
    Reports [⟨.keyA, false⟩, ⟨.keyRightctrl, false⟩, ⟨.keyRightctrl, true⟩]
      (eventsRead sysZero.kbd [.irq 0x1E, .popEvent, .irq 0xE0, .irq 0x1E, .irq 0xE0, .irq 0x1D,
        .irq 0xE0, .irq 0x9D]) := by
  refine scancodes_report sysZero.kbd [.key ⟨.keyA, false⟩, .unmapped true 0x1E,
    .key ⟨.keyRightctrl, false⟩, .key ⟨.keyRightctrl, true⟩] (by decide) _ rfl ?_
  intro p scancode hp
  have hall : ∀ p ∈ List.inits [EventOp.irq 0x1E, .popEvent, .irq 0xE0, .irq 0x1E, .irq 0xE0,
      .irq 0x1D, .irq 0xE0, .irq 0x9D], EventRoom (eventRun sysZero.kbd p) := by decide
  exact hall p ((List.mem_inits ..).mpr ((List.prefix_append ..).trans hp))

/-- The break code of a key that is down is no repeat. -/
theorem break_no_repeat :
    ¬∀ (i : ℕ) (a : KeyAction) (e : KeyEvent), [⟨.keyA, false⟩, ⟨.keyA, true⟩][i]? = some a →
      (eventsRead sysZero.kbd [.irq 0x1E, .irq 0x9E])[i]? = some e →
        e.isRepeat = heldAfter (List.take i [⟨.keyA, false⟩, ⟨.keyA, true⟩]) a.keycode := by
  intro h
  have hevent : (eventsRead sysZero.kbd [.irq 0x1E, .irq 0x9E])[1]? =
      some ⟨.keyA, 0, 0, 0, false, false⟩ := by decide
  exact Bool.false_ne_true (h 1 ⟨.keyA, true⟩ _ rfl hevent)

end WaluOs
