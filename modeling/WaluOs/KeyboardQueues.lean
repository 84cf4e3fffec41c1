import WaluOs.Keyboard

/-!
# One producer in the interrupt, one consumer outside it

The keyboard gate is an interrupt gate, so `keyboardOnIrq` runs to completion;
but it may run between any two steps of a pop: after the empty test, after the
slot read, before the tail store. `KbdSystem` keeps those cut points as a
stage per pop, and a run is any list of interrupts and consumer steps.

Two facts carry the proof. An interrupt only *grows* a queue
(`KbdQueue.Grows`): it appends to the contents and to the history alike, and
counts what it could not append. A consumer step keeps
`ConsumerOk`, which says that the bytes popped so far followed by the queue
contents are the bytes accepted, and that the element a half-finished pop has
read is still the first one of the queue. What the interrupts of a run push is a
matter of decoding, and `kbdRun_faithful` is behind it.
-/

namespace WaluOs

universe u

variable {α : Type u} {n : ℕ}

/-! ## What pushes do to a queue -/

/-- `q'` is `q` after some pushes: stored elements joined the contents and the
history, the others were counted. -/
structure KbdQueue.Grows (n : ℕ) (q q' : KbdQueue α) : Prop where
  /-- indices stay in range -/
  inRange : q.ring.InRange n → q'.ring.InRange n
  /-- contents and history grow by the same elements -/
  appended : q.ring.InRange n → ∃ extra,
    q'.ring.contents n = q.ring.contents n ++ extra ∧ q'.accepted = q.accepted ++ extra
  /-- refusals are counted, modulo 2^64 -/
  counted : ∃ m, q'.refused = q.refused + m ∧ q'.dropCount = q.dropCount + UInt64.ofNat m

namespace KbdQueue.Grows

theorem refl (q : KbdQueue α) : Grows n q q :=
  ⟨id, fun _ => ⟨[], by simp, by simp⟩, 0, rfl, (UInt64.add_zero _).symm⟩

theorem trans {q₁ q₂ q₃ : KbdQueue α} (h₁ : Grows n q₁ q₂) (h₂ : Grows n q₂ q₃) :
    Grows n q₁ q₃ := by
  refine ⟨h₂.inRange ∘ h₁.inRange, fun hr => ?_, ?_⟩
  · obtain ⟨e₁, hc₁, ha₁⟩ := h₁.appended hr
    obtain ⟨e₂, hc₂, ha₂⟩ := h₂.appended (h₁.inRange hr)
    exact ⟨e₁ ++ e₂, by rw [hc₂, hc₁, List.append_assoc], by rw [ha₂, ha₁, List.append_assoc]⟩
  · obtain ⟨m₁, hr₁, hd₁⟩ := h₁.counted
    obtain ⟨m₂, hr₂, hd₂⟩ := h₂.counted
    exact ⟨m₁ + m₂, by rw [hr₂, hr₁, Nat.add_assoc],
      by rw [hd₂, hd₁, UInt64.ofNat_add, UInt64.add_assoc]⟩

end KbdQueue.Grows

theorem kbdPush_full {q : KbdQueue α} (h : (q.ring.head + 1) % n = q.ring.tail) (x : α) :
    kbdPush n q x = { q with dropCount := q.dropCount + 1, refused := q.refused + 1 } := by
  rw [kbdPush, if_pos h]

theorem kbdPush_push {q : KbdQueue α} (h : (q.ring.head + 1) % n ≠ q.ring.tail) (x : α) :
    kbdPush n q x = { q with ring := q.ring.push n x, accepted := q.accepted ++ [x] } := by
  rw [kbdPush, if_neg h]
  rfl

theorem kbdPush_grows (q : KbdQueue α) (x : α) : q.Grows n (kbdPush n q x) := by
  by_cases h : (q.ring.head + 1) % n = q.ring.tail
  · rw [kbdPush_full h]
    exact ⟨id, fun _ => ⟨[], by simp, by simp⟩, 1, rfl, rfl⟩
  · rw [kbdPush_push h]
    exact ⟨fun hr => hr.push x, fun hr => ⟨[x], hr.contents_push h x, rfl⟩, 0, rfl,
      (UInt64.add_zero _).symm⟩

/-- Both queues of a driver state grow. All that an interrupt does to them is of this kind, for it
only pushes. -/
structure Kbd.Grows (k k' : Kbd) : Prop where
  /-- the byte queue grows -/
  bytes : k.kbdByteQueue.Grows kbdByteQueueSize k'.kbdByteQueue
  /-- the event queue grows -/
  events : k.kbdEventQueue.Grows kbdEventQueueSize k'.kbdEventQueue

namespace Kbd.Grows

theorem refl (k : Kbd) : k.Grows k := ⟨.refl _, .refl _⟩

theorem trans {k₁ k₂ k₃ : Kbd} (h₁ : k₁.Grows k₂) (h₂ : k₂.Grows k₃) : k₁.Grows k₃ :=
  ⟨h₁.bytes.trans h₂.bytes, h₁.events.trans h₂.events⟩

/-- Only the queues matter. -/
theorem of_eq {k k' : Kbd} (hb : k'.kbdByteQueue = k.kbdByteQueue)
    (he : k'.kbdEventQueue = k.kbdEventQueue) : k.Grows k' :=
  ⟨hb ▸ .refl _, he ▸ .refl _⟩

theorem congr_left {k k₁ k₂ : Kbd} (h : k₁.Grows k₂) (hb : k₁.kbdByteQueue = k.kbdByteQueue)
    (he : k₁.kbdEventQueue = k.kbdEventQueue) : k.Grows k₂ :=
  (of_eq hb he).trans h

end Kbd.Grows

theorem kbdPushByte_grows (k : Kbd) (b : UInt8) : k.Grows (kbdPushByte k b) :=
  ⟨kbdPush_grows _ _, .refl _⟩

theorem kbdPushEvent_grows (k : Kbd) (e : KeyEvent) : k.Grows (kbdPushEvent k e) :=
  ⟨.refl _, kbdPush_grows _ _⟩

theorem kbdEmitSequence_grows (seq : List UInt8) : ∀ k : Kbd, k.Grows (kbdEmitSequence k seq) := by
  induction seq with
  | nil => exact fun k => .refl k
  | cons b seq ih => exact fun k => (kbdPushByte_grows k b).trans (ih _)

/-- The bytes `kbdEmitUtf8` pushes for a code point. -/
def utf8Bytes (codepoint : ℕ) : List UInt8 :=
  if codepoint ≤ 0x7F then
    [UInt8.ofNat codepoint]
  else if codepoint ≤ 0x7FF then
    [UInt8.ofNat (0xC0 ||| codepoint >>> 6), UInt8.ofNat (0x80 ||| codepoint &&& 0x3F)]
  else if codepoint ≤ 0xFFFF then
    if 0xD800 ≤ codepoint ∧ codepoint ≤ 0xDFFF then
      []
    else
      [UInt8.ofNat (0xE0 ||| codepoint >>> 12), UInt8.ofNat (0x80 ||| codepoint >>> 6 &&& 0x3F),
        UInt8.ofNat (0x80 ||| codepoint &&& 0x3F)]
  else if codepoint ≤ 0x10FFFF then
    [UInt8.ofNat (0xF0 ||| codepoint >>> 18), UInt8.ofNat (0x80 ||| codepoint >>> 12 &&& 0x3F),
      UInt8.ofNat (0x80 ||| codepoint >>> 6 &&& 0x3F), UInt8.ofNat (0x80 ||| codepoint &&& 0x3F)]
  else
    []

theorem kbdEmitUtf8_eq (k : Kbd) (codepoint : ℕ) :
    kbdEmitUtf8 k codepoint = kbdEmitSequence k (utf8Bytes codepoint) := by
  unfold kbdEmitUtf8 utf8Bytes
  split_ifs <;> rfl

theorem kbdUpdateState_queues (k : Kbd) (keycode : KeyCode) (pressed : Bool) :
    (kbdUpdateState k keycode pressed).kbdByteQueue = k.kbdByteQueue ∧
      (kbdUpdateState k keycode pressed).kbdEventQueue = k.kbdEventQueue := by
  unfold kbdUpdateState kbdSetModifierBit
  cases pressed <;> split <;> exact ⟨rfl, rfl⟩

theorem kbdEmitInputBytes_grows (k : Kbd) (event : KeyEvent) :
    k.Grows (kbdEmitInputBytes k event) := by
  rw [kbdEmitInputBytes]
  split_ifs with hp hu ha
  · exact .refl k
  · rw [kbdEmitUtf8_eq]
    exact (kbdPushByte_grows k _).trans (kbdEmitSequence_grows _ _)
  · rw [kbdEmitUtf8_eq]
    exact kbdEmitSequence_grows _ k
  · exact kbdEmitSequence_grows _ k

theorem kbdHandleKey_grows (k : Kbd) (keycode : KeyCode) (released : Bool) :
    k.Grows (kbdHandleKey k keycode released) := by
  rw [kbdHandleKey]
  have hq := kbdUpdateState_queues
    { k with kbdKeyDown := Function.update k.kbdKeyDown keycode (!released) } keycode (!released)
  exact ((kbdPushEvent_grows _ _).trans (kbdEmitInputBytes_grows _ _)).congr_left hq.1 hq.2

/-- An interrupt only grows the queues. -/
theorem keyboardOnIrq_grows (k : Kbd) (scancode : UInt8) : k.Grows (keyboardOnIrq k scancode) := by
  rw [keyboardOnIrq]
  dsimp only
  split_ifs
  -- the prefix and skip branches touch no queue; the rest looked a key up
  all_goals first
    | exact .of_eq rfl rfl
    | exact (kbdHandleKey_grows _ _ _).congr_left rfl rfl

/-! ## The consumer, step by step -/

/-- Where a pop stands. A pop tests, reads and then moves the tail, and an interrupt may come
before each of these; so a half-finished pop is part of the state. -/
inductive PopStage (α : Type u) : Type u where
  /-- not in the call -/
  | idle : PopStage α
  /-- past the empty test -/
  | tested : PopStage α
  /-- the tail slot has been read -/
  | read : α → PopStage α

/-- One individual step of a pop: the empty test, the slot read, or the tail
store, which completes the call. -/
def popStep (n : ℕ) (q : KbdQueue α) (popped : List α) :
    PopStage α → KbdQueue α × List α × PopStage α
  | .idle => (q, popped, if q.ring.tail = q.ring.head then .idle else .tested)
  | .tested => (q, popped, .read (q.ring.slots q.ring.tail))
  | .read x =>
    ({ q with ring := { q.ring with tail := (q.ring.tail + 1) % n } }, popped ++ [x], .idle)

/-- The driver together with its consumer, who may stand in the middle of either pop call. What
has been popped is kept, so that it can be compared with what was pushed. -/
structure KbdSystem : Type where
  /-- the driver -/
  kbd : Kbd
  /-- where `keyboard_pop_char` stands -/
  charStage : PopStage UInt8
  /-- where `keyboard_pop_event` stands -/
  eventStage : PopStage KeyEvent
  /-- the bytes popped so far -/
  poppedBytes : List UInt8
  /-- the events popped so far -/
  poppedEvents : List KeyEvent

/-- What can happen next. Any sequence of these is an interleaving: nothing is assumed of how
interrupts and consumer take turns. -/
inductive KbdAct : Type where
  /-- an interrupt with this scancode -/
  | irq : UInt8 → KbdAct
  /-- the next step of `keyboard_pop_char` -/
  | popChar : KbdAct
  /-- the next step of `keyboard_pop_event` -/
  | popEvent : KbdAct

/-- Perform one action. -/
def kbdStep (s : KbdSystem) : KbdAct → KbdSystem
  | .irq scancode => { s with kbd := keyboardOnIrq s.kbd scancode }
  | .popChar =>
    let r := popStep kbdByteQueueSize s.kbd.kbdByteQueue s.poppedBytes s.charStage
    { s with kbd := { s.kbd with kbdByteQueue := r.1 }, poppedBytes := r.2.1, charStage := r.2.2 }
  | .popEvent =>
    let r := popStep kbdEventQueueSize s.kbd.kbdEventQueue s.poppedEvents s.eventStage
    { s with kbd := { s.kbd with kbdEventQueue := r.1 }, poppedEvents := r.2.1,
             eventStage := r.2.2 }

/-- The system right after `keyboard_init`, with nobody in a call and nothing popped. -/
def kbdStart (k : Kbd) : KbdSystem := ⟨keyboardInit k, .idle, .idle, [], []⟩

/-- A run: interrupts and consumer steps in any order. -/
def kbdRun (s : KbdSystem) (acts : List KbdAct) : KbdSystem := acts.foldl kbdStep s

/-- With no interrupt in between, the three steps are `keyboard_pop_char`. -/
theorem keyboardPopChar_eq_steps (k : Kbd) (popped : List UInt8)
    (hne : k.kbdByteQueue.ring.tail ≠ k.kbdByteQueue.ring.head) :
    let r₁ := popStep kbdByteQueueSize k.kbdByteQueue popped .idle
    let r₂ := popStep kbdByteQueueSize r₁.1 r₁.2.1 r₁.2.2
    let r₃ := popStep kbdByteQueueSize r₂.1 r₂.2.1 r₂.2.2
    ∃ b, keyboardPopChar k = ({ k with kbdByteQueue := r₃.1 }, some b) ∧
      r₃.2.1 = popped ++ [b] := by
  refine ⟨k.kbdByteQueue.ring.slots k.kbdByteQueue.ring.tail, ?_, ?_⟩
  · simp [keyboardPopChar, popStep, hne]
  · simp [popStep, hne]

/-! ## The invariant -/

/-- What the half-finished pop knows about the queue contents. -/
def PopStage.Agrees (stage : PopStage α) (contents : List α) : Prop :=
  match stage with
  | .idle => True
  | .tested => contents ≠ []
  | .read x => ∃ rest, contents = x :: rest

theorem PopStage.Agrees.append {stage : PopStage α} {contents : List α}
    (h : stage.Agrees contents) (extra : List α) : stage.Agrees (contents ++ extra) := by
  cases stage with
  | idle => trivial
  | tested => exact List.append_ne_nil_of_left_ne_nil h extra
  | read x =>
    obtain ⟨rest, rfl⟩ := h
    exact ⟨rest ++ extra, rfl⟩

/-- A queue together with its consumer. The last field is what makes a pop safe against
interrupts: the slot that it has read or found filled is still the oldest one, since an interrupt
only writes behind the head. -/
structure ConsumerOk (n : ℕ) (q : KbdQueue α) (popped : List α) (stage : PopStage α) : Prop where
  /-- indices address slots -/
  inRange : q.ring.InRange n
  /-- popped and queued are what was accepted -/
  stream : q.accepted = popped ++ q.ring.contents n
  /-- the counter counts the refusals -/
  dropped : q.dropCount = UInt64.ofNat q.refused
  /-- the half-finished pop is still right -/
  stage : stage.Agrees (q.ring.contents n)

/-- Pushes keep the invariant at every cut point. -/
theorem ConsumerOk.grows {q q' : KbdQueue α} {popped : List α} {stage : PopStage α}
    (h : ConsumerOk n q popped stage) (hg : q.Grows n q') : ConsumerOk n q' popped stage := by
  obtain ⟨extra, hc, ha⟩ := hg.appended h.inRange
  obtain ⟨m, hr, hd⟩ := hg.counted
  refine ⟨hg.inRange h.inRange, ?_, ?_, ?_⟩
  · rw [ha, hc, h.stream, List.append_assoc]
  · rw [hd, hr, h.dropped, UInt64.ofNat_add]
  · rw [hc]
    exact h.stage.append extra

/-- So does each step of a pop. -/
theorem ConsumerOk.popStep {q : KbdQueue α} {popped : List α} {stage : PopStage α}
    (h : ConsumerOk n q popped stage) :
    ConsumerOk n (popStep n q popped stage).1 (popStep n q popped stage).2.1
      (popStep n q popped stage).2.2 := by
  cases stage with
  | idle =>
    refine ⟨h.inRange, h.stream, h.dropped, ?_⟩
    change (ite _ _ _ : PopStage α).Agrees _
    split
    · trivial
    · rename_i hne
      exact fun hc => hne (h.inRange.empty_iff.mpr hc)
  | tested =>
    refine ⟨h.inRange, h.stream, h.dropped, ?_⟩
    have hne : q.ring.tail ≠ q.ring.head := fun he => h.stage (h.inRange.empty_iff.mp he)
    exact ⟨_, h.inRange.contents_pop hne⟩
  | read x =>
    obtain ⟨rest, hx⟩ := h.stage
    have hne : q.ring.tail ≠ q.ring.head := fun he => by
      rw [h.inRange.empty_iff.mp he] at hx
      cases hx
    -- the slot read earlier is the one the tail store gives up
    have hpop := h.inRange.contents_pop hne
    obtain ⟨rfl, -⟩ := List.cons.inj (hx.symm.trans hpop)
    refine ⟨h.inRange.pop, ?_, h.dropped, trivial⟩
    change q.accepted = (popped ++ [_]) ++ (q.ring.pop n).contents n
    rw [h.stream, hpop, List.append_assoc, List.singleton_append]

/-- The invariant of the system: each queue is right with its consumer. The two do not depend on
each other. -/
structure KbdSystem.Ok (s : KbdSystem) : Prop where
  /-- of the byte queue -/
  bytes : ConsumerOk kbdByteQueueSize s.kbd.kbdByteQueue s.poppedBytes s.charStage
  /-- of the event queue -/
  events : ConsumerOk kbdEventQueueSize s.kbd.kbdEventQueue s.poppedEvents s.eventStage

theorem ConsumerOk.start (hn : 0 < n) (slots : ℕ → α) :
    ConsumerOk n ⟨⟨slots, 0, 0⟩, 0, [], 0⟩ [] .idle := by
  refine ⟨SlotRing.inRange_zero hn slots, ?_, rfl, trivial⟩
  rw [SlotRing.contents_zero, List.nil_append]

theorem kbdStart_ok (k : Kbd) : (kbdStart k).Ok :=
  ⟨.start (by decide) _, .start (by decide) _⟩

theorem kbdStep_ok {s : KbdSystem} (hs : s.Ok) (act : KbdAct) : (kbdStep s act).Ok := by
  cases act with
  | irq scancode =>
    have hg := keyboardOnIrq_grows s.kbd scancode
    exact ⟨hs.bytes.grows hg.bytes, hs.events.grows hg.events⟩
  | popChar => exact ⟨hs.bytes.popStep, hs.events⟩
  | popEvent => exact ⟨hs.bytes, hs.events.popStep⟩

theorem kbdRun_ok (k : Kbd) (acts : List KbdAct) : (kbdRun (kbdStart k) acts).Ok :=
  List.foldlRecOn acts kbdStep (kbdStart_ok k) fun _ hs act _ => kbdStep_ok hs act

/-- What a queue guarantees to its consumer at any moment: what the consumer has got and will
get is what was accepted, in that order, and what was not accepted is counted. -/
structure QueueFaithful (n : ℕ) (q : KbdQueue α) (popped : List α) : Prop where
  /-- the head addresses a slot -/
  head_lt : q.ring.head < n
  /-- the tail addresses a slot -/
  tail_lt : q.ring.tail < n
  /-- one slot stays empty -/
  occupancy : (q.ring.contents n).length ≤ n - 1
  /-- what was popped, then what is queued, is what was accepted -/
  stream : popped ++ q.ring.contents n = q.accepted
  /-- the drop counter counts the refused pushes, modulo 2^64 -/
  dropped : q.dropCount = UInt64.ofNat q.refused

theorem ConsumerOk.faithful {q : KbdQueue α} {popped : List α} {stage : PopStage α}
    (h : ConsumerOk n q popped stage) : QueueFaithful n q popped := by
  have hlt := h.inRange.count_lt
  refine ⟨h.inRange.head_lt, h.inRange.tail_lt, ?_, h.stream.symm, h.dropped⟩
  rw [SlotRing.length_contents]
  omega

end WaluOs
