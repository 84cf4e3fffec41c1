import WaluOs.Interrupts
import WaluOs.KeyDrops

/-!
# The main loop

`kernel_main` ends in a loop that polls the shell and then halts the processor until the
next interrupt. Interrupts come at any point of it. What they share with the loop is the
queue of the keyboard, so it does not matter where exactly they fall between two accesses
to that queue: the loop is taken apart into steps that make one access each.

Without interrupts the steps make up `shell_poll` (`mainLoop_poll`). With them, what the
shell executes still depends on nothing but what was typed, as long as no more than 1023
bytes come in before the loop finds the queue empty again (`mainRun_executed`). A key that
comes after that and before `hlt` waits for the next tick.
-/

namespace WaluOs

/-! ## The code -/

/-- Where the main loop is. A step of it goes from one of these places to the next, and makes at
most one access to what interrupts share with it, the queue of the keyboard. -/
inductive Phase : Type where
  /-- in `hlt` -/
  | hlt : Phase
  /-- in the loop of `tty_poll_input` -/
  | poll : Phase
  /-- before a read of the PTY -/
  | pty (ptyId : ℤ) : Phase
  /-- in the loop over what was read -/
  | buf (ptyId : ℤ) (rest : List UInt8) : Phase
  /-- in the loop over the TTY's own queue -/
  | ring : Phase
  deriving DecidableEq, Repr

/-- What was read and not handled yet. -/
def Phase.chunk : Phase → List UInt8
  | .buf _ rest => rest
  | .hlt => []
  | .poll => []
  | .pty _ => []
  | .ring => []

/-- An interrupt ends `hlt`, and the loop starts over. -/
def Phase.wake : Phase → Phase
  | .hlt => .poll
  | .poll => .poll
  | .pty ptyId => .pty ptyId
  | .buf ptyId rest => .buf ptyId rest
  | .ring => .ring

/-- The system and the main loop in it. `fresh` counts what keys have made, and is started anew
where the loop finds the queue empty; it says how much the queue can hold at most. -/
structure Loop : Type where
  /-- the system -/
  sys : Sys
  /-- where the loop is -/
  phase : Phase
  /-- trace: the bytes that keys have made since the loop last found the queue empty -/
  fresh : ℕ

/-- One step of the loop. -/
def mainStep (m : Loop) : Loop :=
  match m.phase with
  | .hlt => m
  | .poll =>
    match keyboardPopChar m.sys.kbd with
    | (_, none) =>
      let ptyId := sessionActivePty m.sys.sessions
      ⟨m.sys, if 0 ≤ ptyId then .pty ptyId else .ring, 0⟩
    | (kbd, some byte) => ⟨ttyReceive { m.sys with kbd := kbd } byte, .poll, m.fresh⟩
  | .pty ptyId =>
    let r := ptySlaveRead m.sys.ptys ptyId true 128
    ⟨{ m.sys with ptys := r.1 }, if r.2.length = 0 then .hlt else .buf ptyId r.2, m.fresh⟩
  | .buf ptyId [] => ⟨m.sys, .pty ptyId, m.fresh⟩
  | .buf ptyId (c :: rest) => ⟨shellByte m.sys c, .buf ptyId rest, m.fresh⟩
  | .ring =>
    match ttyPopChar m.sys with
    | (s, none) => ⟨s, .hlt, m.fresh⟩
    | (s, some c) => ⟨shellByte s c, .ring, m.fresh⟩

/-- What can happen next. A run is any list of these, so interrupts come at any point, and the
loop may stand still for as long as it likes. -/
inductive LoopAct : Type where
  /-- `irq_keyboard`, with a scancode in the port -/
  | key : UInt8 → LoopAct
  /-- `irq_timer` -/
  | tick : LoopAct
  /-- a step of the loop -/
  | run : LoopAct
  deriving DecidableEq, Repr

/-- It happens. -/
def mainAct (m : Loop) : LoopAct → Loop
  | .key scancode =>
    ⟨{ m.sys with kbd := keyboardOnIrq m.sys.kbd scancode }, m.phase.wake,
      m.fresh + (irqBytes m.sys.kbd scancode).length⟩
  | .tick =>
    ⟨{ m.sys with gauges.pitTicks := m.sys.gauges.pitTicks + 1 }, m.phase.wake, m.fresh⟩
  | .run => mainStep m

/-- A run: keys, ticks and steps of the loop, as they come. -/
def mainRun (m : Loop) (acts : List LoopAct) : Loop := acts.foldl mainAct m

/-- `kernel_main` enters the loop. The input side is initialized, the prompt was written, and no
key has been pressed. -/
def mainBoot (s : Sys) : Loop := ⟨kernelInput s, .poll, 0⟩

theorem mainRun_append (m : Loop) (xs ys : List LoopAct) :
    mainRun m (xs ++ ys) = mainRun (mainRun m xs) ys := List.foldl_append

section

variable (s : Sys) (ptyId : ℤ) (fresh : ℕ)

/-- A read of the PTY. -/
theorem mainStep_pty :
    mainStep ⟨s, .pty ptyId, fresh⟩ =
      ⟨{ s with ptys := (ptySlaveRead s.ptys ptyId true 128).1 },
        if (ptySlaveRead s.ptys ptyId true 128).2.length = 0 then .hlt
        else .buf ptyId (ptySlaveRead s.ptys ptyId true 128).2, fresh⟩ := rfl

variable {s}

/-- The queue of the keyboard is empty. -/
theorem mainStep_poll_none (h : keyboardPopChar s.kbd = (s.kbd, none)) :
    mainStep ⟨s, .poll, fresh⟩ =
      ⟨s, if 0 ≤ sessionActivePty s.sessions then .pty (sessionActivePty s.sessions) else .ring,
        0⟩ := by
  rw [mainStep, h]

/-- A byte is taken from it. -/
theorem mainStep_poll_some {kbd : Kbd} {byte : UInt8}
    (h : keyboardPopChar s.kbd = (kbd, some byte)) :
    mainStep ⟨s, .poll, fresh⟩ = ⟨ttyReceive { s with kbd := kbd } byte, .poll, fresh⟩ := by
  rw [mainStep, h]

/-- The TTY's own queue is empty. -/
theorem mainStep_ring_none {u : Sys} (h : ttyPopChar s = (u, none)) :
    mainStep ⟨s, .ring, fresh⟩ = ⟨u, .hlt, fresh⟩ := by
  rw [mainStep, h]

/-- A byte is taken from it. -/
theorem mainStep_ring_some {u : Sys} {c : UInt8} (h : ttyPopChar s = (u, some c)) :
    mainStep ⟨s, .ring, fresh⟩ = ⟨shellByte u c, .ring, fresh⟩ := by
  rw [mainStep, h]

end

/-! ## Without interrupts -/

/-- The loop gets from `m` to `m'` in so many steps. -/
def Steps (n : ℕ) (m m' : Loop) : Prop := mainRun m (List.replicate n .run) = m'

theorem Steps.refl (m : Loop) : Steps 0 m m := rfl

theorem Steps.head {n : ℕ} {m m' : Loop} (h : Steps n (mainStep m) m') : Steps (n + 1) m m' := h

theorem Steps.trans {n k : ℕ} {m₁ m₂ m₃ : Loop} (h : Steps n m₁ m₂) (h' : Steps k m₂ m₃) :
    Steps (n + k) m₁ m₃ := by
  rw [Steps, List.replicate_add, mainRun_append, h, h']

/-- `shell_poll` is left: the processor halts. -/
def Halts (s s' : Sys) (phase : Phase) : Prop :=
  ∀ fresh, ∃ n fresh', Steps n ⟨s, phase, fresh⟩ ⟨s', .hlt, fresh'⟩

theorem Halts.step {s u s' : Sys} {phase phase' : Phase}
    (h : ∀ fresh, ∃ fresh', mainStep ⟨s, phase, fresh⟩ = ⟨u, phase', fresh'⟩)
    (hrest : Halts u s' phase') : Halts s s' phase := by
  intro fresh
  obtain ⟨fresh₁, hstep⟩ := h fresh
  obtain ⟨n, fresh₂, hsteps⟩ := hrest fresh₁
  exact ⟨n + 1, fresh₂, Steps.head (by rwa [hstep])⟩

/-- What was read is handled byte by byte. -/
theorem halts_buf {s' : Sys} {ptyId : ℤ} (rest : List UInt8) :
    ∀ {s : Sys}, Halts (rest.foldl shellByte s) s' (.pty ptyId) →
      Halts s s' (.buf ptyId rest) := by
  induction rest with
  | nil => exact fun h => .step (fun fresh => ⟨fresh, rfl⟩) h
  | cons c rest ih => exact fun h => .step (fun fresh => ⟨fresh, rfl⟩) (ih h)

variable {keys : List UInt8}

/-- The PTY loop. -/
theorem halts_pty {i : ℕ} (fuel : ℕ) :
    ∀ {s : Sys}, Live keys s → sessionActivePty s.sessions = i →
      readerWork s.readerQueue < fuel → Halts s (shellPtyLoop i fuel s) (.pty i) := by
  induction fuel with
  | zero => exact fun _ _ hwork => absurd hwork (Nat.not_lt_zero _)
  | succ fuel ih =>
    intro s h hactive hwork
    have hread := ptySlaveRead_reads h hactive
    rw [shellPtyLoop]
    split
    · rename_i hnil
      have hstep : ∀ fresh, ∃ fresh', mainStep ⟨s, .pty i, fresh⟩ =
          ⟨{ s with ptys := (ptySlaveRead s.ptys i true 128).1 }, .hlt, fresh'⟩ := fun fresh =>
        ⟨fresh, by rw [mainStep_pty, if_pos hnil]⟩
      exact .step hstep fun fresh => ⟨0, fresh, .refl _⟩
    · rename_i hne
      have hstep : ∀ fresh, ∃ fresh', mainStep ⟨s, .pty i, fresh⟩ =
          ⟨{ s with ptys := (ptySlaveRead s.ptys i true 128).1 },
            .buf i (ptySlaveRead s.ptys i true 128).2, fresh'⟩ := fun fresh =>
        ⟨fresh, by rw [mainStep_pty, if_neg hne]⟩
      have hone := hread.continues
      have hless := hread.work (mt List.length_eq_zero_iff.mpr hne)
      exact .step hstep (halts_buf _ (ih hone.live
        ((congrArg sessionActivePty hone.sessions).trans hactive)
        (Nat.lt_of_lt_of_le hless (Nat.le_of_lt_succ hwork))))

/-- The TTY loop. -/
theorem halts_ring (fuel : ℕ) :
    ∀ {s : Sys}, Live keys s → sessionActivePty s.sessions < 0 →
      readerWork s.readerQueue < fuel → Halts s (shellTtyLoop fuel s) .ring := by
  induction fuel with
  | zero => exact fun _ _ hwork => absurd hwork (Nat.not_lt_zero _)
  | succ fuel ih =>
    intro s h hactive hwork
    have hread := ttyPopChar_reads h hactive
    rw [shellTtyLoop]
    cases hpop : ttyPopChar s with
    | mk u popped =>
      rw [hpop] at hread
      cases popped with
      | none =>
        exact .step (fun fresh => ⟨fresh, mainStep_ring_none fresh hpop⟩)
          fun fresh => ⟨0, fresh, .refl _⟩
      | some c =>
        have hone := hread.continues
        have hless := hread.work (List.cons_ne_nil c [])
        exact .step (fun fresh => ⟨fresh, mainStep_ring_some fresh hpop⟩) (ih hone.live
          ((congrArg sessionActivePty hone.sessions).trans_lt hactive)
          (Nat.lt_of_lt_of_le hless (Nat.le_of_lt_succ hwork)))

/-- The receive loop, and what comes after it. -/
theorem halts_poll {s' : Sys} (fuel : ℕ) :
    ∀ {s : Sys} {keys : List UInt8}, Live keys s → keys.length < fuel →
      (∀ u, u = ttyPollLoop fuel s → Halts u s'
        (if 0 ≤ sessionActivePty u.sessions then .pty (sessionActivePty u.sessions) else .ring)) →
      Halts s s' .poll := by
  induction fuel with
  | zero => exact fun _ hlen => absurd hlen (Nat.not_lt_zero _)
  | succ fuel ih =>
    intro s keys h hlen hrest
    rw [ttyPollLoop] at hrest
    cases keys with
    | nil =>
      have hpop := keyboardPopChar_none h.kbd
      rw [hpop] at hrest
      exact .step (fun fresh => ⟨0, mainStep_poll_none fresh hpop⟩) (hrest s rfl)
    | cons byte keys =>
      obtain ⟨k, hpop, hk⟩ := keyboardPopChar_some h.kbd
      rw [hpop] at hrest
      exact .step (fun fresh => ⟨fresh, mainStep_poll_some fresh hpop⟩)
        (ih ((h.setKbd hk).receive byte) (Nat.lt_of_succ_lt_succ hlen) hrest)

/-- **Without interrupts the loop does what `shell_poll` does**, and comes to `hlt`. -/
theorem mainLoop_poll {s : Sys} (h : Live keys s) (hlen : keys.length < kbdByteQueueSize)
    (fresh : ℕ) :
    ∃ n fresh', Steps n ⟨s, .poll, fresh⟩ ⟨shellPoll s, .hlt, fresh'⟩ := by
  refine halts_poll kbdByteQueueSize h hlen (fun u hu => ?_) fresh
  have hlive := ttyPollLoop_live kbdByteQueueSize h hlen
  rw [← hu] at hlive
  rw [shellPoll, ttyPollInput, ← hu]
  split
  · rename_i hactive
    obtain ⟨i, hi⟩ := Int.eq_ofNat_of_zero_le hactive
    rw [hi]
    exact halts_pty shellFuel hlive hi hlive.work_lt
  · rename_i hactive
    exact halts_ring shellFuel hlive (not_le.mp hactive) hlive.work_lt

/-! ## What flows through the loop -/

/-- What the next byte executes is no `selftest` either. -/
theorem Harmless.next {boot : Sys} {seen : List UInt8} {c : UInt8}
    (h : Harmless boot (seen ++ [c])) :
    NoSelftest [((Mealy.run shellStep boot.shell seen).1, c)] := by
  intro line hline
  rw [callsOf, List.flatMap_singleton] at hline
  refine (harmless_append.mp h).2 line ?_
  rwa [Mealy.run_singleton]

/-- Of the bytes that keys have made, `taken` have come to the TTY and `keys` wait in the
queue; of those that the TTY has delivered, the shell has handled `seen`, and `chunk` has been
read for it. Nothing is lost on the way. -/
structure Carries (boot : Sys) (taken keys seen chunk : List UInt8) (s : Sys) : Prop where
  /-- the system is sound, and the queue of the keyboard holds `keys` -/
  live : Live keys s
  /-- the line discipline has read what was taken -/
  discipline : s.discipline = (Discipline.feed ⟨0, []⟩ taken).1
  /-- what it has delivered -/
  delivered : (Discipline.feed ⟨0, []⟩ taken).2 = seen ++ chunk ++ s.readerQueue
  /-- the shell has read what was handled -/
  shell : s.shell = (Mealy.run shellStep boot.shell seen).1
  /-- what it has executed -/
  executed : executed s.calls =
    executed boot.calls ++ commandsOf (Mealy.run shellStep boot.shell seen).2

/-- What is known where the loop is, with `keys` in the queue of the keyboard. -/
def Loop.At (keys : List UInt8) (m : Loop) : Prop :=
  match m.phase with
  | .hlt => m.sys.readerQueue = []
  | .poll => m.sys.readerQueue.length + m.sys.tty.ttyLine.length + keys.length ≤ 511 + m.fresh
  | .pty ptyId => 0 ≤ ptyId ∧ sessionActivePty m.sys.sessions = ptyId
  | .buf ptyId _ => 0 ≤ ptyId ∧ sessionActivePty m.sys.sessions = ptyId
  | .ring => sessionActivePty m.sys.sessions < 0

/-- The same of a system with its loop. -/
structure Flows (boot : Sys) (taken keys seen : List UInt8) (m : Loop) : Prop where
  /-- the bytes -/
  carries : Carries boot taken keys seen m.phase.chunk m.sys
  /-- all that waits is fresh -/
  fresh : keys.length ≤ m.fresh
  /-- where the loop is -/
  phase : m.At keys

section

variable {boot : Sys} {taken keys seen chunk : List UInt8} {s : Sys}

/-- The handlers of interrupts change nothing but the keyboard and the clock. -/
theorem Carries.setKbd (h : Carries boot taken keys seen chunk s) {keys' : List UInt8} {s' : Sys}
    (hlive : Live keys' s') (hqueue : s'.readerQueue = s.readerQueue) (htty : s'.tty = s.tty)
    (hshell : s'.shell = s.shell) (hcalls : s'.calls = s.calls) :
    Carries boot taken keys' seen chunk s' := by
  refine ⟨hlive, ?_, ?_, hshell.trans h.shell, ?_⟩
  · rw [Sys.discipline, htty]
    exact h.discipline
  · rw [hqueue]
    exact h.delivered
  · rw [hcalls]
    exact h.executed

/-- The TTY receives a byte, and has room for all that it delivers. -/
theorem Carries.take {byte : UInt8} (h : Carries boot taken (byte :: keys) seen [] s) {k : Kbd}
    (hk : KbdHolds k keys) (hroom : s.readerQueue.length + s.tty.ttyLine.length ≤ 2046) :
    Carries boot (taken ++ [byte]) keys seen [] (ttyReceive { s with kbd := k } byte) ∧
      (ttyReceive { s with kbd := k } byte).readerQueue.length +
          (ttyReceive { s with kbd := k } byte).tty.ttyLine.length ≤
        s.readerQueue.length + s.tty.ttyLine.length + 1 := by
  have hframe := ttyReceive_frame { s with kbd := k } byte
  obtain ⟨hlive, hdiscipline, hqueue, hlen⟩ := h.live.take hk hroom
  have hfeed : Discipline.feed ⟨0, []⟩ (taken ++ [byte]) =
      ((s.discipline.step byte).1,
        (Discipline.feed ⟨0, []⟩ taken).2 ++ (s.discipline.step byte).2) := by
    rw [Discipline.feed, Mealy.run_append, Mealy.run_singleton, h.discipline]
  refine ⟨⟨hlive, ?_, ?_, hframe.shell.trans h.shell, hframe.executed.trans h.executed⟩, hlen⟩
  · rw [hfeed]
    exact hdiscipline
  · rw [hfeed, hqueue, h.delivered, List.append_assoc]

/-- A chunk is read. -/
theorem Carries.read (h : Carries boot taken keys seen [] s) {u : Sys}
    (hread : ReadsChunk keys s u chunk) (hdiscipline : u.discipline = s.discipline)
    (hshell : u.shell = s.shell) (hcalls : u.calls = s.calls) :
    Carries boot taken keys seen chunk u := by
  refine ⟨hread.live, hdiscipline.trans h.discipline, ?_, hshell.trans h.shell, ?_⟩
  · rw [h.delivered, hread.queue, List.append_nil, List.append_assoc]
  · rw [hcalls]
    exact h.executed

/-- The shell handles a byte. -/
theorem Carries.handle {c : UInt8} {left : List UInt8}
    (h : Carries boot taken keys seen (c :: left) s)
    (hself : Harmless boot (Discipline.feed ⟨0, []⟩ taken).2) :
    Carries boot taken keys (seen ++ [c]) left (shellByte s c) ∧ ShellFrame s (shellByte s c) := by
  rw [h.delivered, List.append_assoc, List.cons_append, List.append_cons] at hself
  have hnext := hself.left.next
  rw [← h.shell] at hnext
  have hframe := shellByte_shellFrame s c hnext
  obtain ⟨hstep, hcommands⟩ := shellByte_step s c
  have hrun : Mealy.run shellStep boot.shell (seen ++ [c]) =
      ((shellStep s.shell c).1,
        (Mealy.run shellStep boot.shell seen).2 ++ (shellStep s.shell c).2) := by
    rw [Mealy.run_append, Mealy.run_singleton, h.shell]
  refine ⟨⟨(shellByte_continues h.live c).live, ?_, ?_, ?_, ?_⟩, hframe⟩
  · rw [Sys.discipline, hframe.tty]
    exact h.discipline
  · rw [hframe.readerQueue, h.delivered]
    simp only [List.append_assoc, List.cons_append, List.nil_append]
  · rw [hrun]
    exact hstep
  · rw [hrun, hcommands, h.executed, commandsOf_append, List.append_assoc]

end

/-! ### The loop -/

/-- How much is left to do until `hlt`. -/
def Loop.work (keys : List UInt8) (m : Loop) : ℕ :=
  match m.phase with
  | .hlt => 0
  | .poll =>
    3 * (m.sys.readerQueue.length + m.sys.tty.ttyLine.length + keys.length) + keys.length + 2
  | .pty _ => 3 * m.sys.readerQueue.length + 1
  | .buf _ rest => 3 * m.sys.readerQueue.length + rest.length + 2
  | .ring => 3 * m.sys.readerQueue.length + 1

/-- `m'` comes after `m` in the loop: bytes have moved on, and less is left to do. -/
def Moves (boot : Sys) (taken keys : List UInt8) (m m' : Loop) : Prop :=
  ∃ taken' keys' seen', taken' ++ keys' = taken ++ keys ∧ Flows boot taken' keys' seen' m' ∧
    m'.work keys' < m.work keys

namespace Flows

variable {boot : Sys} {taken keys seen : List UInt8} {m : Loop} {s : Sys} {fresh : ℕ}

/-- An interrupt leaves the loop where it is, or wakes it. What it may change is the queue of the
keyboard, to which it adds, and the count of what is fresh. -/
theorem wake (h : Flows boot taken keys seen m) {s' : Sys} {keys' : List UInt8} {fresh' : ℕ}
    (hlive : Live keys' s') (hqueue : s'.readerQueue = m.sys.readerQueue)
    (htty : s'.tty = m.sys.tty) (hsessions : s'.sessions = m.sys.sessions)
    (hshell : s'.shell = m.sys.shell) (hcalls : s'.calls = m.sys.calls)
    (hfresh : keys'.length + m.fresh ≤ keys.length + fresh') :
    Flows boot taken keys' seen ⟨s', m.phase.wake, fresh'⟩ := by
  obtain ⟨s, phase, fresh⟩ := m
  have hold := h.fresh
  have hchunk : phase.wake.chunk = phase.chunk := by cases phase <;> rfl
  have hline : s'.tty.ttyLine.length < 512 := hlive.tty.line_lt
  have hat := h.phase
  refine ⟨?_, ?_, ?_⟩
  · rw [hchunk]
    exact h.carries.setKbd hlive hqueue htty hshell hcalls
  · dsimp only at hfresh hold ⊢
    omega
  · dsimp only at hqueue htty hsessions hfresh hold
    cases phase with
    | hlt =>
      change s.readerQueue = [] at hat
      change s'.readerQueue.length + s'.tty.ttyLine.length + keys'.length ≤ 511 + fresh'
      rw [hqueue, hat, List.length_nil]
      omega
    | poll =>
      change s.readerQueue.length + s.tty.ttyLine.length + keys.length ≤ 511 + fresh at hat
      change s'.readerQueue.length + s'.tty.ttyLine.length + keys'.length ≤ 511 + fresh'
      rw [hqueue, htty]
      omega
    | pty ptyId => exact ⟨hat.1, (congrArg sessionActivePty hsessions).trans hat.2⟩
    | buf ptyId rest => exact ⟨hat.1, (congrArg sessionActivePty hsessions).trans hat.2⟩
    | ring => exact (congrArg sessionActivePty hsessions).trans_lt hat

/-- A key, whose bytes find room. -/
theorem key (h : Flows boot taken keys seen m) (scancode : UInt8)
    (hroom : (mainAct m (.key scancode)).fresh ≤ 1023) :
    Flows boot taken (keys ++ irqBytes m.sys.kbd scancode) seen (mainAct m (.key scancode)) := by
  have hkbd := h.carries.live.kbd
  have hfresh := h.fresh
  change m.fresh + (irqBytes m.sys.kbd scancode).length ≤ 1023 at hroom
  have hcount := congrArg List.length hkbd.bytes
  rw [SlotRing.length_contents] at hcount
  have hfree : m.sys.kbd.kbdByteQueue.free kbdByteQueueSize = 1023 - keys.length := by
    rw [KbdQueue.free, hcount]
    rfl
  have hfront := kbdPushes_front (irqBytes m.sys.kbd scancode) hkbd.inRange
  rw [← keyboardOnIrq_bytes] at hfront
  have hall : (irqBytes m.sys.kbd scancode).take
      (m.sys.kbd.kbdByteQueue.free kbdByteQueueSize) = irqBytes m.sys.kbd scancode :=
    List.take_of_length_le (by omega)
  have hholds : KbdHolds (keyboardOnIrq m.sys.kbd scancode)
      (keys ++ irqBytes m.sys.kbd scancode) := by
    refine ⟨hfront.inRange, ?_, ?_⟩
    · rw [hfront.contents, hall, hkbd.bytes]
    · rw [hfront.dropCount, hkbd.drops, Nat.sub_eq_zero_of_le (by omega)]
      rfl
  refine h.wake (h.carries.live.setKbd hholds) rfl rfl rfl rfl rfl ?_
  rw [List.length_append]
  omega

/-- A tick. -/
theorem tick (h : Flows boot taken keys seen m) : Flows boot taken keys seen (mainAct m .tick) := by
  have hlive : Quiet keys m.sys
      { m.sys with gauges.pitTicks := m.sys.gauges.pitTicks + 1 } :=
    h.carries.live.shell rfl rfl rfl rfl h.carries.live.shellLen
  exact h.wake hlive.live rfl rfl rfl rfl rfl le_rfl

/-- In `tty_poll_input`. -/
theorem movesPoll (h : Flows boot taken keys seen ⟨s, .poll, fresh⟩) (hfresh : fresh ≤ 1023) :
    Moves boot taken keys ⟨s, .poll, fresh⟩ (mainStep ⟨s, .poll, fresh⟩) := by
  have hat : s.readerQueue.length + s.tty.ttyLine.length + keys.length ≤ 511 + fresh := h.phase
  have hcarries : Carries boot taken keys seen [] s := h.carries
  cases keys with
  | nil =>
    rw [mainStep_poll_none fresh (keyboardPopChar_none hcarries.live.kbd)]
    refine ⟨taken, [], seen, rfl, ?_, ?_⟩
    · split_ifs with hactive
      · exact ⟨hcarries, le_rfl, hactive, rfl⟩
      · exact ⟨hcarries, le_rfl, not_le.mp hactive⟩
    · have hless : 3 * s.readerQueue.length + 1 <
          3 * (s.readerQueue.length + s.tty.ttyLine.length + 0) + 0 + 2 := by omega
      split_ifs <;> exact hless
  | cons byte keys =>
    rw [List.length_cons] at hat
    obtain ⟨k, hpop, hk⟩ := keyboardPopChar_some hcarries.live.kbd
    obtain ⟨hcarries', hlen⟩ := hcarries.take hk (by omega)
    rw [mainStep_poll_some fresh hpop]
    refine ⟨taken ++ [byte], keys, seen, by simp, ⟨hcarries', ?_, ?_⟩, ?_⟩
    · exact Nat.le_of_succ_le h.fresh
    · change (ttyReceive _ byte).readerQueue.length + (ttyReceive _ byte).tty.ttyLine.length +
        keys.length ≤ 511 + fresh
      omega
    · dsimp only [Loop.work]
      rw [List.length_cons]
      omega

/-- At a read of the PTY. -/
theorem movesPty {ptyId : ℤ} (h : Flows boot taken keys seen ⟨s, .pty ptyId, fresh⟩) :
    Moves boot taken keys ⟨s, .pty ptyId, fresh⟩ (mainStep ⟨s, .pty ptyId, fresh⟩) := by
  obtain ⟨hpos, hactive⟩ : 0 ≤ ptyId ∧ sessionActivePty s.sessions = ptyId := h.phase
  obtain ⟨i, rfl⟩ := Int.eq_ofNat_of_zero_le hpos
  have hbefore : Carries boot taken keys seen [] s := h.carries
  have hread := ptySlaveRead_reads hbefore.live hactive
  have hcarries := hbefore.read hread rfl rfl rfl
  rw [mainStep_pty]
  cases hchunk : (ptySlaveRead s.ptys i true 128).2 with
  | nil =>
    rw [hchunk] at hread hcarries
    exact ⟨taken, keys, seen, rfl, ⟨hcarries, h.fresh, hread.rest rfl⟩, Nat.zero_lt_succ _⟩
  | cons c rest =>
    rw [hchunk] at hread hcarries
    refine ⟨taken, keys, seen, rfl, ⟨hcarries, h.fresh, hpos, hactive⟩, ?_⟩
    have hqueue := congrArg List.length hread.queue
    rw [List.length_append, List.length_cons] at hqueue
    rw [if_neg (by rw [List.length_cons]; exact Nat.succ_ne_zero _)]
    dsimp only [Loop.work]
    rw [List.length_cons]
    omega

/-- In the loop over what was read. -/
theorem movesBuf {ptyId : ℤ} {rest : List UInt8}
    (h : Flows boot taken keys seen ⟨s, .buf ptyId rest, fresh⟩)
    (hself : Harmless boot (Discipline.feed ⟨0, []⟩ taken).2) :
    Moves boot taken keys ⟨s, .buf ptyId rest, fresh⟩ (mainStep ⟨s, .buf ptyId rest, fresh⟩) := by
  cases rest with
  | nil =>
    exact ⟨taken, keys, seen, rfl, ⟨h.carries, h.fresh, h.phase⟩, Nat.lt_succ_self _⟩
  | cons c rest =>
    obtain ⟨hcarries, hframe⟩ := h.carries.handle hself
    refine ⟨taken, keys, seen ++ [c], rfl, ⟨hcarries, h.fresh, h.phase.1, ?_⟩, ?_⟩
    · exact (congrArg sessionActivePty hframe.sessions).trans h.phase.2
    · change 3 * (shellByte s c).readerQueue.length + rest.length + 2 <
        3 * s.readerQueue.length + (rest.length + 1) + 2
      rw [hframe.readerQueue]
      exact Nat.lt_succ_self _

/-- In the loop over the TTY's own queue. -/
theorem movesRing (h : Flows boot taken keys seen ⟨s, .ring, fresh⟩)
    (hself : Harmless boot (Discipline.feed ⟨0, []⟩ taken).2) :
    Moves boot taken keys ⟨s, .ring, fresh⟩ (mainStep ⟨s, .ring, fresh⟩) := by
  have hactive : sessionActivePty s.sessions < 0 := h.phase
  have hbefore : Carries boot taken keys seen [] s := h.carries
  have hread := ttyPopChar_reads hbefore.live hactive
  have hdiscipline : (ttyPopChar s).1.discipline = s.discipline := by
    rw [ttyPopChar]
    dsimp only
    split_ifs <;> rfl
  have hcarries := hbefore.read hread hdiscipline (ttyPopChar_shell s).1 (ttyPopChar_shell s).2
  cases hpop : ttyPopChar s with
  | mk u popped =>
    rw [hpop] at hread hcarries
    cases popped with
    | none =>
      rw [mainStep_ring_none fresh hpop]
      exact ⟨taken, keys, seen, rfl, ⟨hcarries, h.fresh, hread.rest rfl⟩, Nat.zero_lt_succ _⟩
    | some c =>
      obtain ⟨hcarries', hframe⟩ := hcarries.handle hself
      rw [mainStep_ring_some fresh hpop]
      refine ⟨taken, keys, seen ++ [c], rfl, ⟨hcarries', h.fresh, ?_⟩, ?_⟩
      · exact (congrArg sessionActivePty (hframe.sessions.trans hread.sessions)).trans_lt hactive
      · have hqueue : s.readerQueue = [c] ++ u.readerQueue := hread.queue
        have hkept : (shellByte u c).readerQueue = u.readerQueue := hframe.readerQueue
        change 3 * (shellByte u c).readerQueue.length + 1 < 3 * s.readerQueue.length + 1
        rw [hkept, hqueue, List.length_append, List.length_singleton]
        omega

/-- **A step of the loop**, wherever it is, when no `selftest` is executed. -/
theorem moves (h : Flows boot taken keys seen m) (hfresh : m.fresh ≤ 1023)
    (hself : Harmless boot (Discipline.feed ⟨0, []⟩ taken).2) (hphase : m.phase ≠ .hlt) :
    Moves boot taken keys m (mainStep m) := by
  obtain ⟨s, phase, fresh⟩ := m
  cases phase with
  | hlt => exact absurd rfl hphase
  | poll => exact h.movesPoll hfresh
  | pty ptyId => exact h.movesPty
  | buf ptyId rest => exact h.movesBuf hself
  | ring => exact h.movesRing hself

end Flows

/-! ## Runs -/

/-- What the keys of a run say. All that a user can do is in it; ticks and steps of the loop are
left out. -/
def keysOf (acts : List LoopAct) : List UInt8 :=
  acts.filterMap fun
    | .key scancode => some scancode
    | .tick => none
    | .run => none

/-- The bytes that scancodes make, with nothing held before. They depend on the scancodes only,
and neither on the time nor on any queue. -/
def scannedBytes (scancodes : List UInt8) : List UInt8 :=
  (Mealy.run keyboardStep machineStart scancodes).2.flatMap inputBytes

/-- What a TTY makes of these bytes that loses none. -/
def deliveredBytes (scancodes : List UInt8) : List UInt8 :=
  (Discipline.feed ⟨0, []⟩ (scannedBytes scancodes)).2

/-- The commands in it, cut to what the shell holds of a line. It is what the user has asked for,
in terms of scancodes alone. -/
def typedCommands (scancodes : List UInt8) : List (List UInt8) :=
  (typedLines (deliveredBytes scancodes)).map (List.take 127)

/-- Never more than 1023 bytes come in before the loop finds the queue empty. The queue holds
1023, so then none is dropped; the loop need not keep up with each key. -/
def Paced (m : Loop) (acts : List LoopAct) : Prop :=
  ∀ before, before <+: acts → (mainRun m before).fresh ≤ 1023

instance (m : Loop) (acts : List LoopAct) : Decidable (Paced m acts) :=
  decidable_of_iff (∀ before ∈ acts.inits, (mainRun m before).fresh ≤ 1023)
    (forall_congr' fun before => imp_congr_left (List.mem_inits before acts))

/-- What is typed later comes later. -/
theorem deliveredBytes_append (xs ys : List UInt8) :
    ∃ zs, deliveredBytes (xs ++ ys) = deliveredBytes xs ++ zs := by
  rw [deliveredBytes, scannedBytes, Mealy.run_append, List.flatMap_append, Discipline.feed,
    Mealy.run_append]
  exact ⟨_, rfl⟩

theorem shellByte_kbd (s : Sys) (c : UInt8) : (shellByte s c).kbd = s.kbd := by
  rw [shellByte]
  split_ifs
  · rfl
  · dsimp only
    split_ifs <;> rfl
  · exact (executeCommand_frame _ _).kbd
  · rfl
  · rfl
  · rfl
  · rfl

/-- The loop takes bytes from the queue of the keyboard, and nothing else of it. -/
theorem mainStep_machine (m : Loop) : (mainStep m).sys.kbd.machine = m.sys.kbd.machine := by
  obtain ⟨s, phase, fresh⟩ := m
  cases phase with
  | hlt => rfl
  | poll =>
    by_cases hempty : s.kbd.kbdByteQueue.ring.tail = s.kbd.kbdByteQueue.ring.head
    · rw [mainStep_poll_none fresh (if_pos hempty)]
    · rw [mainStep_poll_some fresh (if_neg hempty)]
      exact (congrArg Kbd.machine (ttyReceive_frame _ _).kbd).trans rfl
  | pty ptyId => rfl
  | buf ptyId rest =>
    cases rest with
    | nil => rfl
    | cons c rest => exact congrArg Kbd.machine (shellByte_kbd s c)
  | ring =>
    have hkbd : (ttyPopChar s).1.kbd = s.kbd := by
      rw [ttyPopChar]
      dsimp only
      split_ifs <;> rfl
    cases hpop : ttyPopChar s with
    | mk u popped =>
      rw [hpop] at hkbd
      cases popped with
      | none =>
        rw [mainStep_ring_none fresh hpop]
        exact congrArg Kbd.machine hkbd
      | some c =>
        rw [mainStep_ring_some fresh hpop]
        exact congrArg Kbd.machine ((shellByte_kbd u c).trans hkbd)

/-- No step brings bytes in. -/
theorem mainStep_fresh (m : Loop) : (mainStep m).fresh ≤ m.fresh := by
  obtain ⟨s, phase, fresh⟩ := m
  cases phase with
  | hlt => exact le_rfl
  | poll =>
    by_cases hempty : s.kbd.kbdByteQueue.ring.tail = s.kbd.kbdByteQueue.ring.head
    · rw [mainStep_poll_none fresh (if_pos hempty)]
      exact Nat.zero_le fresh
    · rw [mainStep_poll_some fresh (if_neg hempty)]
  | pty ptyId => exact le_rfl
  | buf ptyId rest => cases rest <;> exact le_rfl
  | ring =>
    cases hpop : ttyPopChar s with
    | mk u popped =>
      cases popped with
      | none => rw [mainStep_ring_none fresh hpop]
      | some c => rw [mainStep_ring_some fresh hpop]

theorem Loop.hlt_of_work {keys : List UInt8} {m : Loop} (h : m.work keys = 0) :
    m.phase = .hlt := by
  obtain ⟨s, phase, fresh⟩ := m
  cases phase with
  | hlt => rfl
  | poll => cases h
  | pty ptyId => cases h
  | buf ptyId rest => cases h
  | ring => cases h

/-- The commands of what was typed are those that the shell makes of it. -/
theorem typedCommands_eq {boot : Sys} (hempty : boot.shell.shellLen = 0) (scancodes : List UInt8) :
    typedCommands scancodes =
      commandsOf (Mealy.run shellStep boot.shell (deliveredBytes scancodes)).2 := by
  have hstart : Holds boot.shell [] := by
    rw [Holds, Shell.line, hempty]
    rfl
  exact (run_holds (deliveredBytes scancodes) hstart).symm

/-- After a run the keyboard has followed the scancodes, and the bytes flow. -/
structure FlowsTo (boot : Sys) (scancodes : List UInt8) (m : Loop) : Prop where
  /-- the state of the keyboard -/
  machine : m.sys.kbd.machine = (Mealy.run keyboardStep machineStart scancodes).1
  /-- the bytes -/
  flows : ∃ taken keys seen, taken ++ keys = scannedBytes scancodes ∧ Flows boot taken keys seen m

namespace FlowsTo

variable {boot : Sys} {scancodes : List UInt8} {m : Loop}

/-- A key adds its bytes. -/
theorem key (h : FlowsTo boot scancodes m) (scancode : UInt8)
    (hroom : (mainAct m (.key scancode)).fresh ≤ 1023) :
    FlowsTo boot (scancodes ++ [scancode]) (mainAct m (.key scancode)) := by
  obtain ⟨taken, keys, seen, hbytes, hflows⟩ := h.flows
  have hkeyBytes : scannedBytes (scancodes ++ [scancode]) =
      scannedBytes scancodes ++ irqBytes m.sys.kbd scancode := by
    rw [scannedBytes, Mealy.run_append, Mealy.run_singleton, List.flatMap_append, ← h.machine]
    rfl
  refine ⟨?_, taken, _, seen, ?_, hflows.key scancode hroom⟩
  · rw [Mealy.run_append, Mealy.run_singleton, ← h.machine]
    exact keyboardOnIrq_follows.state m.sys.kbd scancode
  · rw [hkeyBytes, ← hbytes, List.append_assoc]

theorem tick (h : FlowsTo boot scancodes m) : FlowsTo boot scancodes (mainAct m .tick) := by
  obtain ⟨taken, keys, seen, hbytes, hflows⟩ := h.flows
  exact ⟨h.machine, taken, keys, seen, hbytes, hflows.tick⟩

/-- What the TTY has delivered is harmless if all that was typed is. -/
theorem harmless {taken keys : List UInt8} (hbytes : taken ++ keys = scannedBytes scancodes)
    (hself : Harmless boot (deliveredBytes scancodes)) :
    Harmless boot (Discipline.feed ⟨0, []⟩ taken).2 := by
  rw [deliveredBytes, ← hbytes, Discipline.feed, Mealy.run_append] at hself
  exact hself.left

theorem step (h : FlowsTo boot scancodes m) (hfresh : m.fresh ≤ 1023)
    (hself : Harmless boot (deliveredBytes scancodes)) : FlowsTo boot scancodes (mainStep m) := by
  obtain ⟨taken, keys, seen, hbytes, hflows⟩ := h.flows
  refine ⟨(mainStep_machine m).trans h.machine, ?_⟩
  by_cases hphase : m.phase = .hlt
  · have hstay : mainStep m = m := by rw [mainStep, hphase]
    rw [hstay]
    exact ⟨taken, keys, seen, hbytes, hflows⟩
  · obtain ⟨taken', keys', seen', hmoved, hflows', -⟩ :=
      hflows.moves hfresh (harmless hbytes hself) hphase
    exact ⟨taken', keys', seen', hmoved.trans hbytes, hflows'⟩

/-- A run. -/
theorem run (acts : List LoopAct) : ∀ {scancodes : List UInt8} {m : Loop},
    FlowsTo boot scancodes m → Paced m acts →
      Harmless boot (deliveredBytes (scancodes ++ keysOf acts)) →
      FlowsTo boot (scancodes ++ keysOf acts) (mainRun m acts) := by
  induction acts with
  | nil =>
    intro scancodes m h _ _
    rwa [keysOf, List.filterMap_nil, List.append_nil]
  | cons act acts ih =>
    intro scancodes m h hpaced hself
    have hone := hpaced [act] (List.cons_prefix_cons.mpr ⟨rfl, List.nil_prefix⟩)
    have hrest : Paced (mainAct m act) acts := fun before hbefore =>
      hpaced (act :: before) (List.cons_prefix_cons.mpr ⟨rfl, hbefore⟩)
    cases act with
    | key scancode =>
      have hcodes : keysOf (.key scancode :: acts) = scancode :: keysOf acts := rfl
      rw [hcodes, List.append_cons] at hself ⊢
      exact ih (h.key scancode hone) hrest hself
    | tick => exact ih h.tick hrest hself
    | run =>
      have hhead := hpaced [] List.nil_prefix
      obtain ⟨zs, hzs⟩ := deliveredBytes_append scancodes (keysOf acts)
      have hself' : Harmless boot (deliveredBytes scancodes ++ zs) := hzs ▸ hself
      exact ih (h.step hhead hself'.left) hrest hself

/-- What has been executed is the front of what was typed. -/
theorem executed_front (h : FlowsTo boot scancodes m) (hempty : boot.shell.shellLen = 0) :
    executed m.sys.calls <+: executed boot.calls ++ typedCommands scancodes := by
  obtain ⟨taken, keys, seen, hbytes, hflows⟩ := h.flows
  obtain ⟨left, hleft⟩ : ∃ left, deliveredBytes scancodes = seen ++ left := by
    rw [deliveredBytes, ← hbytes, Discipline.feed, Mealy.run_append]
    dsimp only
    rw [hflows.carries.delivered, List.append_assoc, List.append_assoc]
    exact ⟨_, rfl⟩
  rw [hflows.carries.executed, typedCommands_eq hempty, hleft, Mealy.run_append, commandsOf_append,
    ← List.append_assoc]
  exact List.prefix_append _ _

/-- When nothing is left anywhere, it is all of it. -/
theorem executed_settled (h : FlowsTo boot scancodes m) (hempty : boot.shell.shellLen = 0)
    (hphase : m.phase = .hlt) (hsettled : Settled m.sys) :
    executed m.sys.calls = executed boot.calls ++ typedCommands scancodes := by
  obtain ⟨taken, keys, seen, hbytes, hflows⟩ := h.flows
  have hkeys : keys = [] := hflows.carries.live.kbd.bytes.symm.trans hsettled.live.kbd.bytes
  have hdelivered := hflows.carries.delivered
  rw [hphase, hsettled.queue, List.append_nil, Phase.chunk, List.append_nil] at hdelivered
  rw [hkeys, List.append_nil] at hbytes
  rw [hflows.carries.executed, typedCommands_eq hempty, deliveredBytes, ← hbytes, hdelivered]

/-- The loop comes to `hlt`. -/
theorem halts (hself : Harmless boot (deliveredBytes scancodes)) (n : ℕ) :
    ∀ {taken keys seen : List UInt8} {m : Loop}, taken ++ keys = scannedBytes scancodes →
      Flows boot taken keys seen m → m.fresh ≤ 1023 → m.work keys ≤ n →
      ∃ k m', Steps k m m' ∧ m'.phase = .hlt := by
  induction n with
  | zero =>
    intro taken keys seen m _ _ _ hwork
    exact ⟨0, m, .refl m, Loop.hlt_of_work (Nat.le_zero.mp hwork)⟩
  | succ n ih =>
    intro taken keys seen m hbytes hflows hfresh hwork
    by_cases hphase : m.phase = .hlt
    · exact ⟨0, m, .refl m, hphase⟩
    · obtain ⟨taken', keys', seen', hmoved, hflows', hless⟩ :=
        hflows.moves hfresh (harmless hbytes hself) hphase
      obtain ⟨k, m', hsteps, hhlt⟩ := ih (hmoved.trans hbytes) hflows'
        ((mainStep_fresh m).trans hfresh) (Nat.le_of_lt_succ (hless.trans_le hwork))
      exact ⟨k + 1, m', hsteps.head, hhlt⟩

/-- Steps of the loop alone. -/
theorem steps (h : FlowsTo boot scancodes m) (hfresh : m.fresh ≤ 1023)
    (hself : Harmless boot (deliveredBytes scancodes)) {n : ℕ} {m' : Loop} (hsteps : Steps n m m') :
    FlowsTo boot scancodes m' ∧ m'.fresh ≤ 1023 := by
  induction n generalizing m with
  | zero =>
    obtain rfl : m = m' := hsteps
    exact ⟨h, hfresh⟩
  | succ n ih => exact ih (h.step hfresh hself) ((mainStep_fresh m).trans hfresh) hsteps

/-- With one more tick the loop finishes. -/
theorem finishes (h : FlowsTo boot scancodes m) (hfresh : m.fresh ≤ 1023)
    (hself : Harmless boot (deliveredBytes scancodes)) :
    ∃ n k, FlowsTo boot scancodes
        (mainRun m (List.replicate n .run ++ .tick :: List.replicate k .run)) ∧
      (mainRun m (List.replicate n .run ++ .tick :: List.replicate k .run)).phase = .hlt ∧
      Settled (mainRun m (List.replicate n .run ++ .tick :: List.replicate k .run)).sys := by
  obtain ⟨taken, keys, seen, hbytes, hflows⟩ := h.flows
  obtain ⟨n, m₁, hsteps, hhlt⟩ := halts hself _ hbytes hflows hfresh le_rfl
  obtain ⟨hflows₁, hfresh₁⟩ := h.steps hfresh hself hsteps
  have htick := hflows₁.tick
  have hpoll : (mainAct m₁ .tick).phase = .poll := by rw [mainAct, hhlt, Phase.wake]
  -- from here on the loop does what `shell_poll` does
  obtain ⟨taken₁, keys₁, seen₁, -, hflows₂⟩ := htick.flows
  have hlen : keys₁.length < kbdByteQueueSize :=
    Nat.lt_succ_of_le (hflows₂.fresh.trans hfresh₁)
  have hlive := hflows₂.carries.live
  obtain ⟨k, fresh', hlast⟩ := mainLoop_poll hlive hlen (mainAct m₁ .tick).fresh
  rw [← hpoll] at hlast
  have hrun : mainRun m (List.replicate n .run ++ .tick :: List.replicate k .run) =
      ⟨shellPoll (mainAct m₁ .tick).sys, .hlt, fresh'⟩ := by
    rw [mainRun_append, show mainRun m (List.replicate n .run) = m₁ from hsteps]
    exact hlast
  refine ⟨n, k, ?_⟩
  rw [hrun]
  exact ⟨(htick.steps hfresh₁ hself hlast).1, rfl, shellPoll_settled hlive hlen⟩

end FlowsTo

theorem kernelInput_kbd (s : Sys) : (kernelInput s).kbd = keyboardInit s.kbd := by
  rw [kernelInput]
  dsimp only
  split
  · rfl
  split
  · rfl
  split
  · rfl
  · rfl

/-- `kernel_main` at the loop. -/
theorem flowsTo_boot (s : Sys) : FlowsTo (kernelInput s) [] (mainBoot s) := by
  have hsettled := kernelInput_settled s
  have hrest := kernelInput_atRest s
  have hdiscipline : (kernelInput s).discipline = ⟨0, []⟩ := by
    rw [Sys.discipline, hrest.tty.escape, hrest.tty.line]
  have hcarries : Carries (kernelInput s) [] [] [] [] (kernelInput s) := by
    refine ⟨hsettled.live, hdiscipline, ?_, ?_, ?_⟩
    · rw [hsettled.queue]
      rfl
    · rw [Mealy.run_nil]
    · rw [Mealy.run_nil]
      exact (List.append_nil _).symm
  refine ⟨congrArg Kbd.machine (kernelInput_kbd s), [], [], [], rfl, hcarries, le_rfl, ?_⟩
  change (kernelInput s).readerQueue.length + (kernelInput s).tty.ttyLine.length + 0 ≤ 511
  rw [hsettled.queue, hrest.tty.line]
  decide

theorem kernelInput_shellLen (s : Sys) : (kernelInput s).shell.shellLen = 0 := by
  rw [← Shell.length_line, (kernelInput_atRest s).shell.line]
  rfl

/-- No `selftest` is typed. -/
theorem harmless_typed_iff (s : Sys) (scancodes : List UInt8) :
    Harmless (kernelInput s) (deliveredBytes scancodes) ↔
      ∀ line ∈ typedCommands scancodes, ¬IsSelftest line := by
  rw [typedCommands_eq (kernelInput_shellLen s), Harmless]

/-- **What the shell executes depends on the keys alone, and not on when their interrupts
come**: after any run in which no more than 1023 bytes come in before the loop finds the
queue of the keyboard empty, the front of the lines that were typed has been executed; and
after one more tick all of them. -/
theorem mainRun_executed (s : Sys) (acts : List LoopAct) (hpaced : Paced (mainBoot s) acts)
    (hself : ∀ line ∈ typedCommands (keysOf acts), ¬IsSelftest line) :
    executed (mainRun (mainBoot s) acts).sys.calls <+:
        executed (kernelInput s).calls ++ typedCommands (keysOf acts) ∧
      ∃ n k, executed (mainRun (mainBoot s)
          (acts ++ (List.replicate n .run ++ .tick :: List.replicate k .run))).sys.calls =
        executed (kernelInput s).calls ++ typedCommands (keysOf acts) := by
  have hempty := kernelInput_shellLen s
  have hharmless := (harmless_typed_iff s (keysOf acts)).mpr hself
  have hrun := FlowsTo.run acts (flowsTo_boot s) hpaced hharmless
  rw [List.nil_append] at hrun
  refine ⟨hrun.executed_front hempty, ?_⟩
  obtain ⟨n, k, hflows, hhlt, hsettled⟩ :=
    hrun.finishes (hpaced acts (List.prefix_refl _)) hharmless
  refine ⟨n, k, ?_⟩
  rw [mainRun_append]
  exact hflows.executed_settled hempty hhlt hsettled

/-- `h` and Enter are pressed, the second one between two reads. -/
theorem mainRun_executed_h :
    executed (mainRun (mainBoot sysZero) [.key 0x23, .run, .run, .key 0x1C, .run]).sys.calls <+:
      executed (kernelInput sysZero).calls ++
        typedCommands (keysOf [.key 0x23, .run, .run, .key 0x1C, .run]) := by
  refine (mainRun_executed sysZero [.key 0x23, .run, .run, .key 0x1C, .run] ?_ ?_).1
  · decide +kernel
  · decide +kernel

end WaluOs
