import Mathlib.Algebra.BigOperators.Group.List.Basic
import Mathlib.Algebra.GroupWithZero.Nat
import Mathlib.Algebra.Order.Group.Nat
import WaluOs.SlotRing

/-!
# The PTY table

Eight slots, each with two byte rings of 2048 slots: `m2s` carries what the
master writes to the slave's reads, `s2m` the other way. The four transfer
calls are the same two loops (`ptyQueueWrite`, `ptyQueueRead`) aimed at one of
the rings, so they are one definition with the ring as a parameter.

A `buf`/`len` pair is modelled by the bytes the pointer addresses: `none` is
the null pointer, and for a read only the pointer's nullness and the length
matter. `size_t` values are naturals (no index reaches 2048) and the two
`uint64_t` counters are `UInt64`, which wraps as C does.
-/

namespace WaluOs

/-- `PTY_MAX` -/
abbrev ptyMax : ℕ := 8

/-- `PTY_QUEUE_SIZE` -/
abbrev ptyQueueSize : ℕ := 2048

/-- The two rings of a slot, by the direction their bytes travel. The code has each transfer
twice, once for either direction; here the direction is an argument. -/
inductive PtyDir : Type where
  /-- master to slave -/
  | m2s : PtyDir
  /-- slave to master -/
  | s2m : PtyDir
  deriving DecidableEq, Repr

/-- `pty_slot_t`; each array is kept with its head and tail index. -/
structure PtySlot : Type where
  /-- handed out by `ptyAlloc` -/
  allocated : Bool
  /-- `m2s`, `m2s_head`, `m2s_tail` -/
  m2s : SlotRing UInt8
  /-- `s2m`, `s2m_head`, `s2m_tail` -/
  s2m : SlotRing UInt8

namespace PtySlot

/-- The ring of a direction. -/
def queue (s : PtySlot) : PtyDir → SlotRing UInt8
  | .m2s => s.m2s
  | .s2m => s.s2m

/-- Replace the ring of a direction. -/
def setQueue (s : PtySlot) (q : SlotRing UInt8) : PtyDir → PtySlot
  | .m2s => { s with m2s := q }
  | .s2m => { s with s2m := q }

@[simp] theorem allocated_setQueue (s : PtySlot) (q : SlotRing UInt8) (d : PtyDir) :
    (s.setQueue q d).allocated = s.allocated := by
  cases d <;> rfl

@[simp] theorem queue_setQueue_self (s : PtySlot) (q : SlotRing UInt8) (d : PtyDir) :
    (s.setQueue q d).queue d = q := by
  cases d <;> rfl

theorem queue_setQueue_ne (s : PtySlot) (q : SlotRing UInt8) {d d' : PtyDir} (h : d' ≠ d) :
    (s.setQueue q d).queue d' = s.queue d' := by
  cases d <;> cases d' <;> first | exact absurd rfl h | rfl

end PtySlot

/-- The module's static variables: the table of slots, and two counters that say what went wrong
without saying where. -/
structure Ptys : Type where
  /-- `g_ptys` -/
  gPtys : ℕ → PtySlot
  /-- `g_pty_dropped_bytes` -/
  gPtyDroppedBytes : UInt64
  /-- `g_pty_invalid_ops` -/
  gPtyInvalidOps : UInt64

/-- Replace one slot of the table. -/
def Ptys.setSlot (p : Ptys) (i : ℕ) (s : PtySlot) : Ptys :=
  { p with gPtys := Function.update p.gPtys i s }

@[simp] theorem Ptys.gPtys_setSlot_self (p : Ptys) (i : ℕ) (s : PtySlot) :
    (p.setSlot i s).gPtys i = s :=
  Function.update_self ..

theorem Ptys.gPtys_setSlot_ne (p : Ptys) {i j : ℕ} (h : j ≠ i) (s : PtySlot) :
    (p.setSlot i s).gPtys j = p.gPtys j :=
  Function.update_of_ne h ..

@[simp] theorem Ptys.gPtyDroppedBytes_setSlot (p : Ptys) (i : ℕ) (s : PtySlot) :
    (p.setSlot i s).gPtyDroppedBytes = p.gPtyDroppedBytes := rfl

@[simp] theorem Ptys.gPtyInvalidOps_setSlot (p : Ptys) (i : ℕ) (s : PtySlot) :
    (p.setSlot i s).gPtyInvalidOps = p.gPtyInvalidOps := rfl

/-! ## The code -/

/-- `pty_queue_write`: the ring and the drop counter afterwards, and the number
of bytes written. A full ring ends the loop and counts the rest as dropped. -/
def ptyQueueWrite (q : SlotRing UInt8) (dropped : UInt64) :
    List UInt8 → SlotRing UInt8 × UInt64 × ℕ
  | [] => (q, dropped, 0)
  | b :: bs =>
    let next := (q.head + 1) % ptyQueueSize
    if next = q.tail then
      (q, dropped + UInt64.ofNat (b :: bs).length, 0)
    else
      let r := ptyQueueWrite
        { q with slots := Function.update q.slots q.head b, head := next } dropped bs
      (r.1, r.2.1, r.2.2 + 1)

/-- `pty_queue_read`: the ring afterwards and the bytes stored to the caller's
buffer, whose number is the value returned. -/
def ptyQueueRead (q : SlotRing UInt8) : ℕ → SlotRing UInt8 × List UInt8
  | 0 => (q, [])
  | len + 1 =>
    if q.tail = q.head then
      (q, [])
    else
      let r := ptyQueueRead { q with tail := (q.tail + 1) % ptyQueueSize } len
      (r.1, q.slots q.tail :: r.2)

/-- A zeroed slot. -/
def PtySlot.zero : PtySlot := ⟨false, ⟨fun _ => 0, 0, 0⟩, ⟨fun _ => 0, 0, 0⟩⟩

/-- `pty_init` -/
def ptyInit : Ptys := ⟨fun _ => PtySlot.zero, 0, 0⟩

/-- `pty_is_valid` -/
def ptyIsValid (p : Ptys) (ptyId : ℤ) : Bool :=
  decide (0 ≤ ptyId) && decide (ptyId < ptyMax) && (p.gPtys ptyId.toNat).allocated

/-- `pty_alloc`: the first free slot, its indices reset, or `-1`. -/
def ptyAlloc (p : Ptys) : Ptys × ℤ :=
  match (List.range ptyMax).find? fun i => !(p.gPtys i).allocated with
  | some i =>
    (p.setSlot i
      { allocated := true
        m2s := { (p.gPtys i).m2s with head := 0, tail := 0 }
        s2m := { (p.gPtys i).s2m with head := 0, tail := 0 } }, i)
  | none => (p, -1)

/-- The invalid-argument branch of the four transfer calls: the call is counted, and nothing else
is touched. -/
def Ptys.countInvalid (p : Ptys) : Ptys :=
  { p with gPtyInvalidOps := p.gPtyInvalidOps + 1 }

/-- The body shared by the two write calls. -/
def ptyWrite (d : PtyDir) (p : Ptys) (ptyId : ℤ) (buf : Option (List UInt8)) : Ptys × ℕ :=
  match buf with
  | none => (p.countInvalid, 0)
  | some bytes =>
    if ptyIsValid p ptyId then
      let s := p.gPtys ptyId.toNat
      let r := ptyQueueWrite (s.queue d) p.gPtyDroppedBytes bytes
      ({ p.setSlot ptyId.toNat (s.setQueue r.1 d) with gPtyDroppedBytes := r.2.1 }, r.2.2)
    else
      (p.countInvalid, 0)

/-- The body shared by the two read calls. -/
def ptyRead (d : PtyDir) (p : Ptys) (ptyId : ℤ) (nonNull : Bool) (len : ℕ) :
    Ptys × List UInt8 :=
  if ptyIsValid p ptyId && nonNull then
    let s := p.gPtys ptyId.toNat
    let r := ptyQueueRead (s.queue d) len
    (p.setSlot ptyId.toNat (s.setQueue r.1 d), r.2)
  else
    (p.countInvalid, [])

/-- `pty_master_write` -/
def ptyMasterWrite := ptyWrite .m2s

/-- `pty_master_read` -/
def ptyMasterRead := ptyRead .s2m

/-- `pty_slave_write` -/
def ptySlaveWrite := ptyWrite .s2m

/-- `pty_slave_read` -/
def ptySlaveRead := ptyRead .m2s

/-! ## The two loops -/

theorem ptyQueueWrite_full {q : SlotRing UInt8} (hfull : (q.head + 1) % ptyQueueSize = q.tail)
    (dropped : UInt64) (b : UInt8) (bs : List UInt8) :
    ptyQueueWrite q dropped (b :: bs) =
      (q, dropped + UInt64.ofNat (b :: bs).length, 0) := by
  rw [ptyQueueWrite, if_pos hfull]

theorem ptyQueueWrite_push {q : SlotRing UInt8} (hfull : (q.head + 1) % ptyQueueSize ≠ q.tail)
    (dropped : UInt64) (b : UInt8) (bs : List UInt8) :
    ptyQueueWrite q dropped (b :: bs) =
      ((ptyQueueWrite (q.push ptyQueueSize b) dropped bs).1,
        (ptyQueueWrite (q.push ptyQueueSize b) dropped bs).2.1,
        (ptyQueueWrite (q.push ptyQueueSize b) dropped bs).2.2 + 1) := by
  rw [ptyQueueWrite, if_neg hfull]
  rfl

theorem ptyQueueRead_pop {q : SlotRing UInt8} (hne : q.tail ≠ q.head) (len : ℕ) :
    ptyQueueRead q (len + 1) =
      ((ptyQueueRead (q.pop ptyQueueSize) len).1,
        q.slots q.tail :: (ptyQueueRead (q.pop ptyQueueSize) len).2) := by
  rw [ptyQueueRead, if_neg hne]
  rfl

/-- The write loop appends the longest prefix that fits and counts the rest. -/
theorem ptyQueueWrite_spec (bytes : List UInt8) :
    ∀ (q : SlotRing UInt8) (dropped : UInt64), q.InRange ptyQueueSize →
      (ptyQueueWrite q dropped bytes).1.InRange ptyQueueSize ∧
      (ptyQueueWrite q dropped bytes).1.contents ptyQueueSize =
        q.contents ptyQueueSize ++ bytes.take (ptyQueueWrite q dropped bytes).2.2 ∧
      (ptyQueueWrite q dropped bytes).2.2 =
        min bytes.length (ptyQueueSize - 1 - q.count ptyQueueSize) ∧
      (ptyQueueWrite q dropped bytes).2.1 = dropped +
        UInt64.ofNat (bytes.length - (ptyQueueWrite q dropped bytes).2.2) := by
  induction bytes with
  | nil =>
    intro q dropped hq
    simp [ptyQueueWrite, hq]
  | cons b bs ih =>
    intro q dropped hq
    by_cases hfull : (q.head + 1) % ptyQueueSize = q.tail
    · have hcount := hq.full_iff.mp hfull
      rw [ptyQueueWrite_full hfull]
      refine ⟨hq, by simp, ?_, rfl⟩
      simp only [List.length_cons]
      omega
    · rw [ptyQueueWrite_push hfull]
      obtain ⟨hr, hc, hw, hd⟩ := ih (q.push ptyQueueSize b) dropped (hq.push b)
      have hlt := hq.count_lt
      have hcount := hq.count_push hfull b
      have hne := mt hq.full_iff.mpr hfull
      rw [hq.contents_push hfull] at hc
      rw [hcount] at hw
      refine ⟨hr, ?_, ?_, ?_⟩
      · simpa [List.append_assoc] using hc
      · dsimp only
        rw [hw, List.length_cons]
        omega
      · rw [List.length_cons, Nat.add_sub_add_right]
        exact hd

/-- The read loop removes the oldest bytes, as many as there are and were asked
for. -/
theorem ptyQueueRead_spec (len : ℕ) :
    ∀ q : SlotRing UInt8, q.InRange ptyQueueSize →
      (ptyQueueRead q len).1.InRange ptyQueueSize ∧
      q.contents ptyQueueSize =
        (ptyQueueRead q len).2 ++ (ptyQueueRead q len).1.contents ptyQueueSize ∧
      (ptyQueueRead q len).2.length = min len (q.count ptyQueueSize) := by
  induction len with
  | zero =>
    intro q hq
    simp [ptyQueueRead, hq]
  | succ len ih =>
    intro q hq
    by_cases hempty : q.tail = q.head
    · have hcount : q.count ptyQueueSize = 0 := by
        rw [← SlotRing.length_contents, hq.empty_iff.mp hempty, List.length_nil]
      rw [ptyQueueRead, if_pos hempty]
      exact ⟨hq, by simp, by simp [hcount]⟩
    · rw [ptyQueueRead_pop hempty]
      obtain ⟨hr, hc, hl⟩ := ih (q.pop ptyQueueSize) hq.pop
      refine ⟨hr, ?_, ?_⟩
      · rw [hq.contents_pop hempty, hc, List.cons_append]
      · rw [List.length_cons, hq.count_pop hempty]
        omega

/-! ## The calls

What one call does to the table, in terms of the queues its rings stand for. -/

/-- The table invariant: ring indices are in range, and a slot that was never handed out holds no
bytes. Slots are never taken back, so this is kept by every call. -/
structure Ptys.Ok (p : Ptys) : Prop where
  /-- ring indices address slots -/
  inRange : ∀ i d, ((p.gPtys i).queue d).InRange ptyQueueSize
  /-- free slots are empty -/
  free_empty : ∀ i d, (p.gPtys i).allocated = false →
    ((p.gPtys i).queue d).contents ptyQueueSize = []

/-- The bytes queued in direction `d` of slot `i`, oldest first. -/
def Ptys.queued (p : Ptys) (i : ℕ) (d : PtyDir) : List UInt8 :=
  ((p.gPtys i).queue d).contents ptyQueueSize

theorem ptyInit_ok : ptyInit.Ok := by
  constructor
  · intro i d
    cases d <;> exact SlotRing.inRange_zero (by decide) _
  · intro i d _
    cases d <;> exact SlotRing.contents_eq_nil rfl

theorem queued_ptyInit (i : ℕ) (d : PtyDir) : ptyInit.queued i d = [] :=
  ptyInit_ok.free_empty i d rfl

theorem Ptys.length_queued (p : Ptys) (i : ℕ) (d : PtyDir) :
    (p.queued i d).length = ((p.gPtys i).queue d).count ptyQueueSize :=
  SlotRing.length_contents ..

/-- A valid id is the index of an allocated slot. -/
theorem ptyIsValid_iff {p : Ptys} {ptyId : ℤ} :
    ptyIsValid p ptyId = true ↔
      ∃ i : ℕ, i < ptyMax ∧ ptyId = i ∧ (p.gPtys i).allocated = true := by
  simp only [ptyIsValid, Bool.and_eq_true, decide_eq_true_eq]
  constructor
  · rintro ⟨⟨h0, h8⟩, ha⟩
    exact ⟨ptyId.toNat, by omega, by omega, ha⟩
  · rintro ⟨i, hi, rfl, ha⟩
    exact ⟨⟨by omega, by omega⟩, ha⟩

/-- Replacing a slot keeps the invariant if the new slot has it. -/
theorem Ptys.Ok.setSlot {p : Ptys} (hp : p.Ok) {s : PtySlot} (i : ℕ)
    (hr : ∀ d, (s.queue d).InRange ptyQueueSize) (ha : s.allocated = true) :
    (p.setSlot i s).Ok := by
  constructor
  · intro j d
    by_cases hij : j = i
    · subst hij
      rw [Ptys.gPtys_setSlot_self]
      exact hr d
    · rw [Ptys.gPtys_setSlot_ne _ hij]
      exact hp.inRange j d
  · intro j d hfree
    by_cases hij : j = i
    · subst hij
      rw [Ptys.gPtys_setSlot_self, ha] at hfree
      cases hfree
    · rw [Ptys.gPtys_setSlot_ne _ hij] at hfree ⊢
      exact hp.free_empty j d hfree

/-- The counters are not part of the invariant. -/
theorem Ptys.Ok.counters {p : Ptys} (hp : p.Ok) (dropped invalid : UInt64) :
    Ptys.Ok ⟨p.gPtys, dropped, invalid⟩ :=
  ⟨hp.inRange, hp.free_empty⟩

/-- Replacing one ring of one slot changes no other queue. -/
theorem Ptys.queued_setQueue (p : Ptys) (i j : ℕ) (q : SlotRing UInt8) (d e : PtyDir) :
    (p.setSlot i ((p.gPtys i).setQueue q d)).queued j e =
      if j = i ∧ e = d then q.contents ptyQueueSize else p.queued j e := by
  rw [Ptys.queued]
  by_cases hij : j = i
  · subst hij
    rw [Ptys.gPtys_setSlot_self]
    by_cases hde : e = d
    · subst hde
      rw [if_pos ⟨rfl, rfl⟩, PtySlot.queue_setQueue_self]
    · rw [if_neg (fun h => hde h.2), PtySlot.queue_setQueue_ne _ _ hde, Ptys.queued]
  · rw [if_neg (fun h => hij h.1), Ptys.gPtys_setSlot_ne _ hij, Ptys.queued]

theorem Ptys.Ok.setQueue {p : Ptys} (hp : p.Ok) {i : ℕ} (ha : (p.gPtys i).allocated = true)
    {q : SlotRing UInt8} (hq : q.InRange ptyQueueSize) (d : PtyDir) :
    (p.setSlot i ((p.gPtys i).setQueue q d)).Ok := by
  refine hp.setSlot i (fun e => ?_) (by rw [PtySlot.allocated_setQueue, ha])
  by_cases hde : e = d
  · subst hde
    rw [PtySlot.queue_setQueue_self]
    exact hq
  · rw [PtySlot.queue_setQueue_ne _ _ hde]
    exact hp.inRange i e

/-- What `ptyAlloc` does: nothing, or it resets one free slot. -/
theorem ptyAlloc_cases (p : Ptys) :
    (ptyAlloc p = (p, -1) ∧ ∀ i < ptyMax, (p.gPtys i).allocated = true) ∨
    ∃ i < ptyMax, (p.gPtys i).allocated = false ∧
      ptyAlloc p = (p.setSlot i
        { allocated := true
          m2s := { (p.gPtys i).m2s with head := 0, tail := 0 }
          s2m := { (p.gPtys i).s2m with head := 0, tail := 0 } }, (i : ℤ)) := by
  rw [ptyAlloc]
  rcases hf : (List.range ptyMax).find? fun i => !(p.gPtys i).allocated with _ | i
  · refine Or.inl ⟨rfl, fun i hi => ?_⟩
    simpa using List.find?_eq_none.mp hf i (List.mem_range.mpr hi)
  · have hi := List.mem_range.mp (List.mem_of_find?_eq_some hf)
    exact Or.inr ⟨i, hi, by simpa using List.find?_some hf, rfl⟩

/-- Allocation keeps the invariant, moves no byte and leaves the counters. -/
theorem ptyAlloc_spec {p : Ptys} (hp : p.Ok) :
    (ptyAlloc p).1.Ok ∧ (∀ i d, (ptyAlloc p).1.queued i d = p.queued i d) ∧
      (ptyAlloc p).1.gPtyDroppedBytes = p.gPtyDroppedBytes := by
  rcases ptyAlloc_cases p with ⟨h, -⟩ | ⟨j, -, hfree, h⟩
  · rw [h]
    exact ⟨hp, fun _ _ => rfl, rfl⟩
  · rw [h]
    refine ⟨hp.setSlot j ?_ rfl, fun i d => ?_, rfl⟩
    · intro d
      cases d <;> exact SlotRing.inRange_zero (by decide) _
    · rw [Ptys.queued, Ptys.queued]
      by_cases hij : i = j
      · subst hij
        rw [Ptys.gPtys_setSlot_self, hp.free_empty i d hfree]
        cases d <;> exact SlotRing.contents_eq_nil rfl
      · rw [Ptys.gPtys_setSlot_ne _ hij]

/-- A write with an invalid id or a null buffer only counts itself. -/
theorem ptyWrite_invalid {p : Ptys} {ptyId : ℤ} {buf : Option (List UInt8)}
    (h : ptyIsValid p ptyId = false ∨ buf = none) (d : PtyDir) :
    ptyWrite d p ptyId buf = (p.countInvalid, 0) := by
  rcases h with h | rfl
  · cases buf with
    | none => rfl
    | some bytes => simp [ptyWrite, h]
  · rfl

/-- A read with an invalid id or a null buffer only counts itself. -/
theorem ptyRead_invalid {p : Ptys} {ptyId : ℤ} {nonNull : Bool}
    (h : ptyIsValid p ptyId = false ∨ nonNull = false) (d : PtyDir) (len : ℕ) :
    ptyRead d p ptyId nonNull len = (p.countInvalid, []) := by
  rw [ptyRead, if_neg]
  rcases h with h | h <;> simp [h]

/-- A valid write: the accepted prefix joins its own queue, the rest is counted
as dropped, and nothing else changes. -/
theorem ptyWrite_spec {p : Ptys} (hp : p.Ok) {i : ℕ} (hv : ptyIsValid p i = true) (d : PtyDir)
    (bytes : List UInt8) :
    (ptyWrite d p i (some bytes)).1.Ok ∧
      (∀ j e, (ptyWrite d p i (some bytes)).1.queued j e =
        if j = i ∧ e = d then
          p.queued i d ++ bytes.take (ptyWrite d p i (some bytes)).2
        else p.queued j e) ∧
      (ptyWrite d p i (some bytes)).2 =
        min bytes.length (ptyQueueSize - 1 - (p.queued i d).length) ∧
      (ptyWrite d p i (some bytes)).1.gPtyDroppedBytes = p.gPtyDroppedBytes +
        UInt64.ofNat (bytes.length - (ptyWrite d p i (some bytes)).2) := by
  obtain ⟨k, -, hk, ha⟩ := ptyIsValid_iff.mp hv
  obtain rfl : i = k := by exact_mod_cast hk
  obtain ⟨hr, hc, hw, hd⟩ :=
    ptyQueueWrite_spec bytes ((p.gPtys i).queue d) p.gPtyDroppedBytes (hp.inRange i d)
  have heq : ptyWrite d p i (some bytes) =
      ({ p.setSlot i ((p.gPtys i).setQueue
            (ptyQueueWrite ((p.gPtys i).queue d) p.gPtyDroppedBytes bytes).1 d) with
          gPtyDroppedBytes :=
            (ptyQueueWrite ((p.gPtys i).queue d) p.gPtyDroppedBytes bytes).2.1 },
        (ptyQueueWrite ((p.gPtys i).queue d) p.gPtyDroppedBytes bytes).2.2) := by
    simp [ptyWrite, hv]
  rw [heq]
  refine ⟨(hp.setQueue ha hr d).counters _ _, fun j e => ?_, ?_, hd⟩
  · refine (p.queued_setQueue i j _ d e).trans ?_
    rw [hc]
    rfl
  · rw [Ptys.length_queued]
    exact hw

/-- A valid read: the bytes returned leave the front of their own queue, and
nothing else changes. -/
theorem ptyRead_spec {p : Ptys} (hp : p.Ok) {i : ℕ} (hv : ptyIsValid p i = true) (d : PtyDir)
    (len : ℕ) :
    (ptyRead d p i true len).1.Ok ∧
      p.queued i d = (ptyRead d p i true len).2 ++ (ptyRead d p i true len).1.queued i d ∧
      (∀ j e, ¬(j = i ∧ e = d) → (ptyRead d p i true len).1.queued j e = p.queued j e) ∧
      (ptyRead d p i true len).2.length = min len (p.queued i d).length ∧
      (ptyRead d p i true len).1.gPtyDroppedBytes = p.gPtyDroppedBytes := by
  obtain ⟨k, -, hk, ha⟩ := ptyIsValid_iff.mp hv
  obtain rfl : i = k := by exact_mod_cast hk
  obtain ⟨hr, hc, hl⟩ := ptyQueueRead_spec len ((p.gPtys i).queue d) (hp.inRange i d)
  have heq : ptyRead d p i true len =
      (p.setSlot i ((p.gPtys i).setQueue (ptyQueueRead ((p.gPtys i).queue d) len).1 d),
        (ptyQueueRead ((p.gPtys i).queue d) len).2) := by
    simp [ptyRead, hv]
  rw [heq]
  refine ⟨hp.setQueue ha hr d, ?_, fun j e hne => ?_, ?_, rfl⟩
  · rw [Ptys.queued_setQueue, if_pos ⟨rfl, rfl⟩]
    exact hc
  · rw [Ptys.queued_setQueue, if_neg hne]
  · rw [Ptys.length_queued]
    exact hl

/-- Replacing a ring hands out no slot and takes none back. -/
theorem allocated_setSlot_setQueue (p : Ptys) (i j : ℕ) (q : SlotRing UInt8) (d : PtyDir) :
    ((p.setSlot i ((p.gPtys i).setQueue q d)).gPtys j).allocated = (p.gPtys j).allocated := by
  by_cases hij : j = i
  · subst hij
    rw [Ptys.gPtys_setSlot_self, PtySlot.allocated_setQueue]
  · rw [Ptys.gPtys_setSlot_ne _ hij]

@[simp] theorem ptyIsValid_ptyWrite (d : PtyDir) (p : Ptys) (i j : ℤ)
    (buf : Option (List UInt8)) : ptyIsValid (ptyWrite d p i buf).1 j = ptyIsValid p j := by
  cases buf with
  | none => rfl
  | some bytes =>
    rw [ptyWrite]
    split
    · exact congrArg _ (allocated_setSlot_setQueue p i.toNat j.toNat _ d)
    · rfl

@[simp] theorem ptyIsValid_ptyRead (d : PtyDir) (p : Ptys) (i j : ℤ) (nonNull : Bool) (len : ℕ) :
    ptyIsValid (ptyRead d p i nonNull len).1 j = ptyIsValid p j := by
  rw [ptyRead]
  split
  · exact congrArg _ (allocated_setSlot_setQueue p i.toNat j.toNat _ d)
  · rfl

end WaluOs
