import WaluOs.KeyboardDecode
import WaluOs.TtyRuns

/-!
# Escape sequences from the keyboard to the line

An arrow, navigation or function key arrives at the TTY as an escape sequence, which
its filter is there to throw away. Keyboard and filter know nothing of each other:
between them is a queue of bytes, and the Esc key puts a bare `0x1B` into it.

To follow a byte from its key, the bytes in the queue are kept a second time with the
key they came from (`KeyByte`). The code does not see these tags; `PollOk.byte` says
that they go along with what it does. A run is any order of interrupts, rounds of
`tty_poll_input`, and calls of the reader.
-/

namespace WaluOs

/-! ## Bytes and where they came from -/

/-- A byte in the keyboard queue, with the key that it comes from. The tag is not in the code; it
is what "part of an escape sequence" means for a byte that looks like any other. -/
structure KeyByte : Type where
  /-- the byte -/
  byte : UInt8
  /-- the event whose bytes it belongs to -/
  key : KeyEvent
  /-- how many bytes of that event came before it -/
  offset : ℕ
  deriving DecidableEq, Repr

/-- The bytes of an event from an offset on. -/
def tagFrom (key : KeyEvent) : ℕ → List UInt8 → List KeyByte
  | _, [] => []
  | offset, byte :: bytes => ⟨byte, key, offset⟩ :: tagFrom key (offset + 1) bytes

/-- The bytes of an event. -/
def keyBytes (key : KeyEvent) : List KeyByte := tagFrom key 0 (inputBytes key)

theorem tagFrom_bytes (key : KeyEvent) (bytes : List UInt8) :
    ∀ offset, (tagFrom key offset bytes).map KeyByte.byte = bytes := by
  induction bytes with
  | nil => exact fun _ => rfl
  | cons b bytes ih =>
    intro offset
    rw [tagFrom, List.map_cons, ih]

theorem keyBytes_bytes (keys : List KeyEvent) :
    (keys.flatMap keyBytes).map KeyByte.byte = keys.flatMap inputBytes := by
  rw [List.map_flatMap]
  exact List.flatMap_congr fun key _ => tagFrom_bytes key _ 0

/-- The byte was produced by `kbd_emit_utf8` for a key that has a character. -/
def KeyByte.FromCharacter (b : KeyByte) : Prop :=
  b.key.unicode ≠ 0 ∧ b.byte ∈ utf8Bytes b.key.unicode

/-- The first byte of a sequence that `kbd_emit_special_sequence` emits. -/
def KeyByte.StartsSequence (b : KeyByte) : Prop := b.key.unicode = 0 ∧ b.offset = 0

/-! ## Runs -/

/-- A system, and the bytes in its keyboard queue with their origin. -/
structure Typing : Type where
  /-- the system -/
  sys : Sys
  /-- what `kbd_byte_queue` holds, with its origin -/
  queued : List KeyByte

/-- What can happen: interrupts and polls in any order, and all that the rest of the kernel may do
to the TTY, except leave canonical mode. -/
inductive KeyOp : Type where
  /-- an interrupt with this scancode -/
  | irq : UInt8 → KeyOp
  /-- one round of the loop of `tty_poll_input` -/
  | poll : KeyOp
  /-- `tty_pop_char` -/
  | popChar : KeyOp
  /-- `tty_set_echo` -/
  | setEcho : Bool → KeyOp
  /-- `tty_attach_session` -/
  | attachSession : ℤ → ℤ → KeyOp
  /-- one of the PTY calls -/
  | pty : PtyOp → KeyOp
  deriving DecidableEq, Repr

/-- Perform one operation. An interrupt tags its bytes, and a poll takes one of them. -/
def keyStep (t : Typing) : KeyOp → Typing
  | .irq scancode =>
    ⟨{ t.sys with kbd := keyboardOnIrq t.sys.kbd scancode },
      t.queued ++ (keyboardStep t.sys.kbd.machine scancode).2.flatMap keyBytes⟩
  | .poll => ⟨ttyPollLoop 1 t.sys, t.queued.tail⟩
  | .popChar => ⟨ttyStep t.sys .popChar, t.queued⟩
  | .setEcho enabled => ⟨ttyStep t.sys (.setEcho enabled), t.queued⟩
  | .attachSession sessionId ptyId => ⟨ttyStep t.sys (.attachSession sessionId ptyId), t.queued⟩
  | .pty op => ⟨ttyStep t.sys (.pty op), t.queued⟩

/-- Right after `keyboard_init`, `tty_init` and `pty_init`, with empty queues. -/
def keyStart (s : Sys) : Typing := ⟨{ ttyStart s with kbd := keyboardInit s.kbd }, []⟩

/-- A run from that start. -/
def keyRun (s : Sys) (ops : List KeyOp) : Typing := ops.foldl keyStep (keyStart s)

/-- In the run, `tty_poll_input` goes around its loop in state `t`. These are the moments at which
the TTY takes a byte. -/
def PolledAt (s : Sys) (ops : List KeyOp) (t : Typing) : Prop :=
  ∃ before, before ++ [.poll] <+: ops ∧ t = keyRun s before

/-- No byte was lost on the way to the queue, and neither Alt nor AltGr is held. A sequence that
lost its end cannot be told from another one, and with Alt an ESC is part of a character. -/
structure Clean (t : Typing) : Prop where
  /-- no push was refused -/
  refused : t.sys.kbd.kbdByteQueue.refused = 0
  /-- `0x1B` is no prefix of a character -/
  noAlt : t.sys.kbd.kbdModifiers &&& (kbdModAlt ||| kbdModAltgr) = 0

/-- Nothing is stored, delivered or echoed: for the user and for the reader the byte was not
there. -/
structure Unseen (s s' : Sys) : Prop where
  /-- the line buffer -/
  line : s'.tty.ttyLine = s.tty.ttyLine
  /-- the reader's queue -/
  reader : s'.readerQueue = s.readerQueue
  /-- the calls to the console -/
  calls : s'.calls = s.calls

/-- What a round of `tty_poll_input` guarantees: it takes the oldest byte, and nobody sees the
byte if it belongs to an escape sequence. -/
structure PollOk (t : Typing) : Prop where
  /-- it takes the first of the tagged bytes -/
  byte : (keyboardPopChar t.sys.kbd).2 = t.queued.head?.map KeyByte.byte
  /-- which is unseen, unless it belongs to a character -/
  origin : ∀ b, t.queued.head? = some b →
    b.FromCharacter ∨ Unseen t.sys (ttyPollLoop 1 t.sys)

/-! ## What the filter discards -/

/-- The filter discards every byte, starting in this state. -/
def Discards : ℕ → List UInt8 → Prop
  | _, [] => True
  | state, byte :: bytes =>
    (escapeStep state byte).2 = true ∧ Discards (escapeStep state byte).1 bytes

instance decidableDiscards : (state : ℕ) → (bytes : List UInt8) → Decidable (Discards state bytes)
  | _, [] => isTrue trivial
  | state, byte :: bytes =>
    have := decidableDiscards (escapeStep state byte).1 bytes
    inferInstanceAs (Decidable (_ ∧ _))

/-- An idle filter discards each of the keyboard's sequences whole. -/
theorem discards_specialSequence (key : KeyCode) : Discards 0 (kbdSpecialSequence key) := by
  cases key <;> decide

/-- A discarded byte changes nothing but the filter and the counters. -/
theorem ttyReceive_discarded {s : Sys} (hcanon : s.tty.ttyCanonical = true) {byte : UInt8}
    (h : (escapeStep s.tty.ttyEscapeState byte).2 = true) :
    ∃ rx n, ttyReceive s byte =
      { s with
        tty.ttyEscapeState := (escapeStep s.tty.ttyEscapeState byte).1
        tty.ttyRxCount := rx
        tty.ttyEscapeDiscardCount := n } := by
  obtain ⟨n, hfilter⟩ := ttyHandleEscapeFilter_eq
    { s with tty.ttyRxCount := s.tty.ttyRxCount + 1 } byte
  have hdiscard : (ttyHandleEscapeFilter
      { s with tty.ttyRxCount := s.tty.ttyRxCount + 1 } byte).2 = true := by
    rw [hfilter]
    exact h
  refine ⟨s.tty.ttyRxCount + 1, n, ?_⟩
  rw [ttyReceive, if_pos hcanon, ttyHandleCanonical, if_pos hdiscard, hfilter]

/-! ## What is in the queue -/

/-- An event without a character: its bytes are a sequence, if it has any. -/
theorem discards_inputBytes {key : KeyEvent} (h : key.unicode = 0) :
    Discards 0 (inputBytes key) := by
  rw [inputBytes]
  split_ifs
  · trivial
  · exact absurd h ‹_›
  · exact absurd h ‹_›
  · exact discards_specialSequence key.keycode

/-- An event with a character: its bytes are that of the character, without Alt. -/
theorem inputBytes_subset {key : KeyEvent} (h : key.unicode ≠ 0)
    (halt : key.modifiers &&& (kbdModAlt ||| kbdModAltgr) = 0) :
    inputBytes key ⊆ utf8Bytes key.unicode := by
  rw [inputBytes]
  split_ifs
  · exact List.nil_subset _
  · exact absurd halt ‹_›
  · exact List.Subset.refl _

/-- The queue holds the rest of one event and whole other ones; if the rest is a
sequence, the filter is in it. -/
def QueueSound (state : ℕ) (queued : List KeyByte) : Prop :=
  ∃ (key : KeyEvent) (offset : ℕ) (bytes : List UInt8) (keys : List KeyEvent),
    queued = tagFrom key offset bytes ++ keys.flatMap keyBytes ∧
      (key.unicode = 0 → Discards state bytes) ∧
      (key.unicode ≠ 0 → bytes ⊆ utf8Bytes key.unicode) ∧
      ∀ key ∈ keys, key.modifiers &&& (kbdModAlt ||| kbdModAltgr) = 0

theorem QueueSound.nil (state : ℕ) : QueueSound state [] :=
  ⟨⟨.keyNone, 0, 0, 0, false, false⟩, 0, [], [], rfl, fun _ => trivial,
    fun _ => List.nil_subset _, fun _ h => absurd h List.not_mem_nil⟩

/-- An interrupt adds whole events. -/
theorem QueueSound.append {state : ℕ} {queued : List KeyByte} (h : QueueSound state queued)
    {news : List KeyEvent}
    (hnews : ∀ key ∈ news, key.modifiers &&& (kbdModAlt ||| kbdModAltgr) = 0) :
    QueueSound state (queued ++ news.flatMap keyBytes) := by
  obtain ⟨key, offset, bytes, keys, rfl, hspecial, hchar, hkeys⟩ := h
  refine ⟨key, offset, bytes, keys ++ news, ?_, hspecial, hchar, fun key hk => ?_⟩
  · rw [List.flatMap_append, List.append_assoc]
  · rcases List.mem_append.mp hk with hk | hk
    · exact hkeys key hk
    · exact hnews key hk

/-- The first byte of whole events is the first byte of one of them. -/
theorem flatMap_keyBytes_cons {b : KeyByte} {rest : List KeyByte} (keys : List KeyEvent)
    (h : keys.flatMap keyBytes = b :: rest) :
    ∃ key bytes later, key ∈ keys ∧ later ⊆ keys ∧ inputBytes key = b.byte :: bytes ∧
      b = ⟨b.byte, key, 0⟩ ∧ rest = tagFrom key 1 bytes ++ later.flatMap keyBytes := by
  induction keys with
  | nil => cases h
  | cons key keys ih =>
    rw [List.flatMap_cons, keyBytes] at h
    cases hbytes : inputBytes key with
    | nil =>
      rw [hbytes] at h
      obtain ⟨key', bytes, later, hk, hl, hfirst⟩ := ih h
      exact ⟨key', bytes, later, List.mem_cons_of_mem _ hk, List.subset_cons_of_subset _ hl, hfirst⟩
    | cons c bytes =>
      rw [hbytes, tagFrom, List.cons_append] at h
      obtain ⟨rfl, rfl⟩ := List.cons.inj h
      exact ⟨key, bytes, keys, List.mem_cons_self, List.subset_cons_self _ _, hbytes, rfl, rfl⟩

/-- **The byte at the head of the queue** belongs to a character, or the filter discards
it, if it is idle whenever a sequence starts. -/
theorem QueueSound.head {state : ℕ} {b : KeyByte} {rest : List KeyByte}
    (h : QueueSound state (b :: rest)) (hstart : b.StartsSequence → state = 0) :
    (b.FromCharacter ∧ ∀ state', QueueSound state' rest) ∨
      ((escapeStep state b.byte).2 = true ∧ QueueSound (escapeStep state b.byte).1 rest) := by
  obtain ⟨key, offset, bytes, keys, heq, hspecial, hchar, hkeys⟩ := h
  cases bytes with
  | cons c bytes =>
    -- in the middle of an event
    rw [tagFrom, List.cons_append] at heq
    obtain ⟨rfl, rfl⟩ := List.cons.inj heq
    by_cases hu : key.unicode = 0
    · obtain ⟨hdiscard, hrest⟩ := hspecial hu
      exact Or.inr ⟨hdiscard, key, offset + 1, bytes, keys, rfl, fun _ => hrest,
        fun hne => absurd hu hne, hkeys⟩
    · obtain ⟨hc, hbytes⟩ := List.cons_subset.mp (hchar hu)
      exact Or.inl ⟨⟨hu, hc⟩, fun _ => ⟨key, offset + 1, bytes, keys, rfl,
        fun h0 => absurd h0 hu, fun _ => hbytes, hkeys⟩⟩
  | nil =>
    -- at the start of the next one
    obtain ⟨key', bytes, later, hk, hl, hbytes, hb, rfl⟩ := flatMap_keyBytes_cons keys heq.symm
    have hlater := fun key h => hkeys key (hl h)
    have hkey : b.key = key' := by rw [hb]
    by_cases hu : key'.unicode = 0
    · have hidle := hstart ⟨by rw [hkey, hu], by rw [hb]⟩
      have hall := discards_inputBytes hu
      rw [hbytes, ← hidle] at hall
      exact Or.inr ⟨hall.1, key', 1, bytes, later, rfl, fun _ => hall.2,
        fun hne => absurd hu hne, hlater⟩
    · have hall := inputBytes_subset hu (hkeys key' hk)
      rw [hbytes] at hall
      obtain ⟨hc, hrest⟩ := List.cons_subset.mp hall
      refine Or.inl ⟨⟨by rwa [hkey], by rwa [hkey]⟩, fun _ => ?_⟩
      exact ⟨key', 1, bytes, later, rfl, fun h0 => absurd h0 hu, fun _ => hrest, hlater⟩

/-! ## The invariant -/

/-- The tags are the queue, and the filter is where the queue says: in the middle of a sequence
exactly if the next byte is. -/
structure Aligned (t : Typing) : Prop where
  /-- the TTY is sound -/
  tty : TtyOk t.sys
  /-- canonical mode -/
  canonical : t.sys.tty.ttyCanonical = true
  /-- the tagged bytes are the bytes -/
  kbd : KbdHolds t.sys.kbd (t.queued.map KeyByte.byte)
  /-- the filter -/
  queue : QueueSound t.sys.tty.ttyEscapeState t.queued

theorem keyStart_aligned (s : Sys) : Aligned (keyStart s) := by
  have hok := ttyStart_ok s
  refine ⟨⟨⟨hok.reader.ptys, hok.reader.ring⟩, hok.line_lt, hok.noNewline⟩, rfl, ?_, .nil 0⟩
  exact ⟨SlotRing.inRange_zero (by decide) _, SlotRing.contents_zero _ _, rfl⟩

/-- An interrupt. -/
theorem Aligned.irq {t : Typing} (h : Aligned t) {scancode : UInt8} (hclean : Clean t)
    (hclean' : Clean (keyStep t (.irq scancode))) : Aligned (keyStep t (.irq scancode)) := by
  have hstate := keyboardOnIrq_follows.state t.sys.kbd scancode
  have hqueues := keyboardOnIrq_follows.output t.sys.kbd scancode
  rw [KbdQueues.foldl_push] at hqueues
  have hbytes : (keyboardOnIrq t.sys.kbd scancode).kbdByteQueue =
      ((keyboardStep t.sys.kbd.machine scancode).2.flatMap inputBytes).foldl
        (kbdPush kbdByteQueueSize) t.sys.kbd.kbdByteQueue := congrArg KbdQueues.bytes hqueues
  have hrefused : (keyboardOnIrq t.sys.kbd scancode).kbdByteQueue.refused =
      t.sys.kbd.kbdByteQueue.refused := hclean'.refused.trans hclean.refused.symm
  rw [hbytes] at hrefused
  obtain ⟨hr, hc, hd⟩ := kbdPushes_fit _ h.kbd.inRange hrefused
  rw [← hbytes] at hr hc hd
  refine ⟨⟨⟨h.tty.reader.ptys, h.tty.reader.ring⟩, h.tty.line_lt, h.tty.noNewline⟩, h.canonical,
    ⟨hr, ?_, hd.trans h.kbd.drops⟩, h.queue.append fun key hk => ?_⟩
  · rw [keyStep, List.map_append, keyBytes_bytes, ← h.kbd.bytes]
    exact hc
  · rw [keyboardStep_modifiers _ _ key hk, ← hstate]
    exact hclean'.noAlt

theorem Discipline.step_escape (d : Discipline) (byte : UInt8) :
    (d.step byte).1.escape = (escapeStep d.escape byte).1 := by
  rw [Discipline.step]
  split <;> rfl

/-- A round of `tty_poll_input`. If it takes the first byte of a sequence the filter was idle, and
the bytes behind that find it where the sequence has left it. -/
theorem Aligned.poll {t : Typing} (h : Aligned t)
    (hstart : ∀ b, t.queued.head? = some b → b.StartsSequence → t.sys.tty.ttyEscapeState = 0) :
    PollOk t ∧ Aligned (keyStep t .poll) := by
  obtain ⟨s, queued⟩ := t
  cases queued with
  | nil =>
    have hpop := keyboardPopChar_none h.kbd
    have hloop : ttyPollLoop 1 s = s := by
      rw [ttyPollLoop, hpop]
    refine ⟨⟨by rw [hpop]; rfl, fun b hb => by cases hb⟩, ?_⟩
    rw [keyStep, hloop]
    exact h
  | cons b rest =>
    obtain ⟨k', hpop, hk'⟩ := keyboardPopChar_some h.kbd
    have hloop : ttyPollLoop 1 s = ttyReceive { s with kbd := k' } b.byte := by
      rw [ttyPollLoop, hpop]
      rfl
    have hok : TtyOk { s with kbd := k' } :=
      ⟨⟨h.tty.reader.ptys, h.tty.reader.ring⟩, h.tty.line_lt, h.tty.noNewline⟩
    have hcanon : (Sys.mk k' s.ptys s.sessions s.tty s.shell s.rustHistoryCount s.gauges
        s.calls).tty.ttyCanonical = true := h.canonical
    have hreceived := ttyReceive_received hok.reader hcanon b.byte
    -- What the filter does with a byte does not depend on the line.
    have hescape := congrArg Discipline.escape hreceived.discipline
    rw [Discipline.step_escape] at hescape
    have haligned : ∀ state, state = (ttyReceive { s with kbd := k' } b.byte).tty.ttyEscapeState →
        QueueSound state rest → Aligned (keyStep ⟨s, b :: rest⟩ .poll) := by
      rintro state rfl hsound
      rw [keyStep, hloop]
      refine ⟨ttyReceive_ok hok b.byte, hreceived.canonical.trans hcanon, ?_, hsound⟩
      rw [(ttyReceive_frame _ _).kbd]
      exact hk'
    have hbyte : (keyboardPopChar s.kbd).2 = some b.byte := by rw [hpop]
    -- Either the byte belongs to a character, or the filter discards it.
    rcases h.queue.head (hstart b rfl) with ⟨hchar, hsound⟩ | ⟨hdiscard, hsound⟩
    · refine ⟨⟨hbyte, fun c hc => ?_⟩, haligned _ rfl (hsound _)⟩
      obtain rfl := Option.some.inj hc
      exact Or.inl hchar
    · refine ⟨⟨hbyte, fun c hc => Or.inr ?_⟩, haligned _ hescape.symm hsound⟩
      obtain ⟨rx, n, heq⟩ := ttyReceive_discarded hcanon hdiscard
      rw [hloop, heq]
      exact ⟨rfl, rfl, rfl⟩

/-- A call of the reader. -/
theorem Aligned.reader {t : Typing} (h : Aligned t) (op : TtyOp)
    (hkbd : (ttyStep t.sys op).kbd = t.sys.kbd)
    (hcanon : (ttyStep t.sys op).tty.ttyCanonical = t.sys.tty.ttyCanonical)
    (hescape : (ttyStep t.sys op).tty.ttyEscapeState = t.sys.tty.ttyEscapeState) :
    Aligned ⟨ttyStep t.sys op, t.queued⟩ :=
  ⟨ttyStep_ok h.tty op, hcanon.trans h.canonical, hkbd ▸ h.kbd, hescape ▸ h.queue⟩

theorem ttyPopChar_quiet (s : Sys) :
    (ttyPopChar s).1.kbd = s.kbd ∧ (ttyPopChar s).1.tty.ttyCanonical = s.tty.ttyCanonical ∧
      (ttyPopChar s).1.tty.ttyEscapeState = s.tty.ttyEscapeState := by
  rw [ttyPopChar]
  dsimp only
  split <;> exact ⟨rfl, rfl, rfl⟩

/-- The filter is idle when a sequence comes out of the queue. A bare Esc key leaves it open, and
what comes next is then taken for its rest. -/
def IdleAtSequences (s : Sys) (ops : List KeyOp) : Prop :=
  ∀ t, PolledAt s ops t → ∀ b, t.queued.head? = some b → b.StartsSequence →
    t.sys.tty.ttyEscapeState = 0

theorem keyRun_append (s : Sys) (ops : List KeyOp) (op : KeyOp) :
    keyRun s (ops ++ [op]) = keyStep (keyRun s ops) op := by
  rw [keyRun, List.foldl_append]
  rfl

theorem keyRun_aligned {s : Sys} (ops : List KeyOp)
    (hclean : FoldAlong keyStep Clean (keyStart s) ops) (hidle : IdleAtSequences s ops) :
    Aligned (keyRun s ops) := by
  induction ops using List.reverseRecOn with
  | nil => exact keyStart_aligned s
  | append_singleton ops op ih =>
    have hsub := List.prefix_append ops [op]
    have h := ih (hclean.restrict hsub) fun t ⟨before, hbefore, ht⟩ =>
      hidle t ⟨before, hbefore.trans hsub, ht⟩
    rw [keyRun_append]
    cases op with
    | irq scancode =>
      have hafter : Clean (keyRun s (ops ++ [.irq scancode])) := hclean.finish
      rw [keyRun_append] at hafter
      -- Nothing was refused before or after, so the bytes joined the queue.
      exact h.irq (hclean.restrict hsub).finish hafter
    | poll => exact (h.poll (hidle _ ⟨ops, List.prefix_refl _, rfl⟩)).2
    | popChar =>
      obtain ⟨hkbd, hcanon, hescape⟩ := ttyPopChar_quiet (keyRun s ops).sys
      exact h.reader .popChar hkbd hcanon hescape
    | setEcho enabled => exact h.reader (.setEcho enabled) rfl rfl rfl
    | attachSession sessionId ptyId =>
      exact h.reader (.attachSession sessionId ptyId) rfl rfl rfl
    | pty op => exact h.reader (.pty op) rfl rfl rfl

/-- **No byte of a key's escape sequence is stored, delivered or echoed**, in every run
in which the filter is idle when a sequence reaches it: what the TTY stores, delivers
or echoes was produced for a key that has a character. -/
theorem sequences_unseen (s : Sys) (ops : List KeyOp)
    (hclean : FoldAlong keyStep Clean (keyStart s) ops) (hidle : IdleAtSequences s ops) :
    ∀ t, PolledAt s ops t → PollOk t := by
  rintro t ⟨before, hbefore, rfl⟩
  have hsub := (List.prefix_append before [.poll]).trans hbefore
  have h := keyRun_aligned before (hclean.restrict hsub) fun t ⟨earlier, hearlier, ht⟩ =>
    hidle t ⟨earlier, hearlier.trans hsub, ht⟩
  exact (h.poll (hidle _ ⟨before, hbefore, rfl⟩)).1

/-- The Up key, when its first byte is about to be read. -/
theorem sequences_unseen_up : PollOk (keyRun sysZero [.irq 0xE0, .irq 0x48]) := by
  refine sequences_unseen sysZero [.irq 0xE0, .irq 0x48, .poll] (.cons ⟨rfl, rfl⟩
    (.cons ⟨rfl, rfl⟩ (.cons ⟨rfl, rfl⟩ (.nil ⟨rfl, rfl⟩)))) ?_ _
    ⟨[.irq 0xE0, .irq 0x48], List.prefix_refl _, rfl⟩
  rintro t ⟨before, hbefore, rfl⟩ b - -
  have hlen := hbefore.length_le
  rw [List.length_append] at hlen
  have hmax : before.length ≤ 2 := Nat.le_of_succ_le_succ hlen
  rcases before with _ | ⟨op, _ | ⟨op', _ | ⟨op'', before⟩⟩⟩
  · rfl
  · simp at hbefore
  · simp at hbefore
    obtain ⟨rfl, rfl⟩ := hbefore
    rfl
  · exact absurd hmax (by simp)

/-- A filter that is not idle lets a byte of every sequence through. -/
theorem not_discards_specialSequence {key : KeyCode} (hkey : kbdSpecialSequence key ≠ [])
    {state : ℕ} (hstate : state = 1 ∨ state = 2) : ¬Discards state (kbdSpecialSequence key) := by
  rcases hstate with rfl | rfl <;> cases key <;> first | exact absurd rfl hkey | decide

/-- Esc, and then the Up key. -/
def escThenUp : List KeyOp :=
  [.irq 0x01, .irq 0x81, .irq 0xE0, .irq 0x48, .poll, .poll, .poll, .poll]

/-- The two bytes behind the second `0x1B` are taken for typed text. -/
theorem escThenUp_stored :
    (∃ t, PolledAt sysZero escThenUp t ∧ ¬PollOk t) ∧
      (keyRun sysZero escThenUp).sys.tty.ttyLine = [0x5B, 0x41] := by
  refine ⟨⟨keyRun sysZero (escThenUp.take 6), ⟨escThenUp.take 6, ?_, rfl⟩, ?_⟩, by decide⟩
  · decide
  · intro h
    rcases h.origin _ rfl with hchar | hunseen
    · exact hchar.1 rfl
    · exact absurd hunseen.line (by decide)

end WaluOs
