import WaluOs.KeyboardDecode
import WaluOs.Shell

/-!
# Keys whose bytes do not all fit

The emitters push the bytes of a key one by one, and `kbd_push_byte` drops and counts each
byte that finds the queue full. Nothing looks at a key as a whole: of its bytes the queue
takes as many as it has room for, and the front part of a sequence stays in it when the rest
has been dropped. So a key is stored whole or not at all unless some of its bytes fit and
others do not.
-/

namespace WaluOs

universe u

/-! ## Interrupts -/

/-- The bytes of the key that a scancode presses; none, if it presses none. Which they are depends
on the keys held and on the locks, and not on the queue. -/
def irqBytes (k : Kbd) (scancode : UInt8) : List UInt8 :=
  (keyboardStep k.machine scancode).2.flatMap inputBytes

theorem keyboardOnIrq_bytes (k : Kbd) (scancode : UInt8) :
    (keyboardOnIrq k scancode).kbdByteQueue =
      (irqBytes k scancode).foldl (kbdPush kbdByteQueueSize) k.kbdByteQueue := by
  have houtput := keyboardOnIrq_follows.output k scancode
  rw [KbdQueues.foldl_push] at houtput
  exact congrArg KbdQueues.bytes houtput

/-- What the interrupts of a run store, one list for each: the front of the bytes of its key, cut
where the queue was full at that moment. -/
def storedFronts : KbdSystem → List KbdAct → List (List UInt8)
  | _, [] => []
  | s, .irq scancode :: acts =>
    (irqBytes s.kbd scancode).take (s.kbd.kbdByteQueue.free kbdByteQueueSize) ::
      storedFronts (kbdStep s (.irq scancode)) acts
  | s, .popChar :: acts => storedFronts (kbdStep s .popChar) acts
  | s, .popEvent :: acts => storedFronts (kbdStep s .popEvent) acts

theorem kbdRun_accepted (acts : List KbdAct) : ∀ {s : KbdSystem}, s.Ok →
    (kbdRun s acts).kbd.kbdByteQueue.accepted =
      s.kbd.kbdByteQueue.accepted ++ (storedFronts s acts).flatten := by
  induction acts with
  | nil => exact fun _ => (List.append_nil _).symm
  | cons act acts ih =>
    intro s hs
    have hrest := ih (kbdStep_ok hs act)
    cases act with
    | irq scancode =>
      have hfront : s.kbd.kbdByteQueue.TakesFront kbdByteQueueSize
          (keyboardOnIrq s.kbd scancode).kbdByteQueue (irqBytes s.kbd scancode) := by
        rw [keyboardOnIrq_bytes]
        exact kbdPushes_front _ hs.bytes.inRange
      refine hrest.trans ?_
      rw [storedFronts, List.flatten_cons, ← List.append_assoc]
      exact congrArg (· ++ _) hfront.accepted
    | popChar =>
      have hsame : (kbdStep s .popChar).kbd.kbdByteQueue.accepted =
          s.kbd.kbdByteQueue.accepted := by
        rw [kbdStep]
        cases s.charStage <;> rfl
      exact hrest.trans (by rw [hsame, storedFronts])
    | popEvent => exact hrest

/-! ## A queue that is almost full -/

/-- The machine while the key `A` is held. -/
def heldA : Decoder × KeyState :=
  (⟨false, 0⟩, ⟨0, 0, Function.update (fun _ => false) .keyA true⟩)

theorem keyboardStep_heldA :
    keyboardStep heldA 0x1E = (heldA, [⟨.keyA, 0x61, 0, 0, true, true⟩]) := by
  have hstep : keyboardStep heldA 0x1E =
      ((⟨false, 0⟩, ⟨0, 0, Function.update heldA.2.down .keyA true⟩),
        [⟨.keyA, 0x61, 0, 0, true, true⟩]) := rfl
  rw [hstep, heldA, Function.update_idem]

/-- The letter that is held is repeated. -/
theorem run_heldA (n : ℕ) :
    (Mealy.run keyboardStep heldA (List.replicate n 0x1E)).1 = heldA ∧
      (Mealy.run keyboardStep heldA (List.replicate n 0x1E)).2.flatMap inputBytes =
        List.replicate n 0x61 := by
  induction n with
  | zero => exact ⟨rfl, rfl⟩
  | succ n ih =>
    rw [List.replicate_succ, Mealy.run_cons, keyboardStep_heldA, List.flatMap_append, ih.2]
    exact ⟨ih.1, rfl⟩

/-- `A` is held until it has been stored `n + 1` times, then a key of the other table is
pressed. -/
def heldThen (n : ℕ) : Kbd := scancodeRun sysZero.kbd (0x1E :: (List.replicate n 0x1E ++ [0xE0]))

theorem heldThen_spec (n : ℕ) : (heldThen n).machine = (⟨true, 0⟩, heldA.2) ∧
    (heldThen n).queues.bytes = (List.replicate (n + 1) 0x61).foldl (kbdPush kbdByteQueueSize)
      (keyboardInit sysZero.kbd).kbdByteQueue := by
  obtain ⟨hmachine, hqueues⟩ := scancodeRun_follows sysZero.kbd
    (0x1E :: (List.replicate n 0x1E ++ [0xE0]))
  have hfirst : keyboardStep machineStart 0x1E = (heldA, [⟨.keyA, 0x61, 0, 0, true, false⟩]) := rfl
  have hlast : Mealy.run keyboardStep heldA [0xE0] = ((⟨true, 0⟩, heldA.2), []) := rfl
  have hone : inputBytes ⟨.keyA, 0x61, 0, 0, true, false⟩ = [0x61] := rfl
  obtain ⟨hstate, hbytes⟩ := run_heldA n
  rw [Mealy.run_cons, hfirst, Mealy.run_append, hstate, hlast] at hmachine hqueues
  rw [KbdQueues.foldl_push, List.append_nil, List.singleton_append, List.flatMap_cons, hbytes, hone,
    List.singleton_append, ← List.replicate_succ] at hqueues
  exact ⟨hmachine, congrArg KbdQueues.bytes hqueues⟩

/-- The room that is left. -/
theorem heldThen_free (n : ℕ) :
    (heldThen n).kbdByteQueue.ring.InRange kbdByteQueueSize ∧
      (heldThen n).kbdByteQueue.free kbdByteQueueSize = 1023 - min 1023 (n + 1) := by
  have hempty : (keyboardInit sysZero.kbd).kbdByteQueue.ring.InRange kbdByteQueueSize :=
    SlotRing.inRange_zero (by decide) _
  have hfilled := kbdPushes_front (List.replicate (n + 1) 0x61) hempty
  rw [← (heldThen_spec n).2] at hfilled
  refine ⟨hfilled.inRange, ?_⟩
  have hlength := congrArg List.length hfilled.contents
  rw [SlotRing.length_contents, List.length_append, List.length_take, List.length_replicate]
    at hlength
  have hnone : ((keyboardInit sysZero.kbd).kbdByteQueue.ring.contents kbdByteQueueSize).length = 0 :=
    rfl
  have hroom : (keyboardInit sysZero.kbd).kbdByteQueue.free kbdByteQueueSize = 1023 := rfl
  rw [hnone, hroom, Nat.zero_add] at hlength
  exact congrArg (1023 - ·) hlength

/-- The sequence of the Up key. -/
theorem heldThen_upKey (n : ℕ) : irqBytes (heldThen n) 0x48 = [0x1B, 0x5B, 0x41] := by
  rw [irqBytes, (heldThen_spec n).1]
  rfl

/-! ## What is stored -/

/-- A list is cut to itself or to nothing exactly if all or nothing fits. -/
theorem take_whole_iff {α : Type u} (xs : List α) (room : ℕ) :
    xs.take room = xs ∨ xs.take room = [] ↔ xs.length ≤ room ∨ room = 0 := by
  rw [List.take_eq_self_iff, List.take_eq_nil_iff]
  constructor
  · rintro (hfits | hzero | rfl)
    · exact Or.inl hfits
    · exact Or.inr hzero
    · exact Or.inl (Nat.zero_le _)
  · exact fun h => h.imp_right Or.inl

/-- **An interrupt stores the front of its key's bytes that fits**, and counts the others; what
the consumer sees of a run is these fronts, one after the other. -/
theorem keyboardOnIrq_front :
    (∀ (k : Kbd) (scancode : UInt8), k.kbdByteQueue.ring.InRange kbdByteQueueSize →
      k.kbdByteQueue.TakesFront kbdByteQueueSize (keyboardOnIrq k scancode).kbdByteQueue
          (irqBytes k scancode) ∧
        ((irqBytes k scancode).take (k.kbdByteQueue.free kbdByteQueueSize) = irqBytes k scancode ∨
          (irqBytes k scancode).take (k.kbdByteQueue.free kbdByteQueueSize) = [] ↔
            (irqBytes k scancode).length ≤ k.kbdByteQueue.free kbdByteQueueSize ∨
              k.kbdByteQueue.free kbdByteQueueSize = 0)) ∧
    ∀ (k : Kbd) (acts : List KbdAct),
      (kbdRun (kbdStart k) acts).poppedBytes ++
          (kbdRun (kbdStart k) acts).kbd.kbdByteQueue.ring.contents kbdByteQueueSize =
        (storedFronts (kbdStart k) acts).flatten := by
  refine ⟨fun k scancode hk => ⟨?_, take_whole_iff _ _⟩, fun k acts => ?_⟩
  · rw [keyboardOnIrq_bytes]
    exact kbdPushes_front _ hk
  · rw [(kbdRun_ok k acts).bytes.faithful.stream, kbdRun_accepted acts (kbdStart_ok k)]
    rfl

/-- With two slots left, the Up key loses its last byte, which is counted. -/
theorem keyboardOnIrq_front_upKey :
    (keyboardOnIrq (heldThen 1020) 0x48).kbdByteQueue.ring.contents kbdByteQueueSize =
        (heldThen 1020).kbdByteQueue.ring.contents kbdByteQueueSize ++ [0x1B, 0x5B] ∧
      (keyboardOnIrq (heldThen 1020) 0x48).kbdByteQueue.dropCount =
        (heldThen 1020).kbdByteQueue.dropCount + 1 := by
  obtain ⟨hrange, hfree⟩ := heldThen_free 1020
  have hfront := (keyboardOnIrq_front.1 (heldThen 1020) 0x48 hrange).1
  have hcontents := hfront.contents
  have hdrops := hfront.dropCount
  rw [hfree, heldThen_upKey] at hcontents hdrops
  exact ⟨hcontents, hdrops⟩

/-- Two bytes of three are neither the whole sequence nor nothing. -/
theorem upKey_cut : irqBytes (heldThen 1020) 0x48 = [0x1B, 0x5B, 0x41] ∧
    (keyboardOnIrq (heldThen 1020) 0x48).kbdByteQueue.ring.contents kbdByteQueueSize =
      (heldThen 1020).kbdByteQueue.ring.contents kbdByteQueueSize ++ [0x1B, 0x5B] := by
  obtain ⟨hrange, hfree⟩ := heldThen_free 1020
  have hfront := (kbdPushes_front (irqBytes (heldThen 1020) 0x48) hrange).contents
  rw [← keyboardOnIrq_bytes, hfree, heldThen_upKey] at hfront
  exact ⟨heldThen_upKey 1020, hfront⟩

end WaluOs
