import WaluOs.Pty

/-!
# Streams through the PTY table

Any finite interleaving of the five calls, from `ptyInit` on. A run is recorded
as the list of its calls, each with the table before and after it and what it
returned, so that the four statements about runs read off the record:

* per slot and direction, the bytes read followed by the bytes still queued are
  the bytes accepted, in order;
* every valid call returns the number of bytes that fit, or that are there;
* the drop counter is the sum, modulo 2^64, of what the valid writes lost;
* an invalid call changes the invalid-call counter only.

The first holds per call as a conservation law on one queue (`ptyCall_spec`)
and telescopes over the run.
-/

namespace WaluOs

/-- One call. `write .m2s` is `pty_master_write` and `read .m2s` is
`pty_slave_read`; with `.s2m` they are `pty_slave_write` and
`pty_master_read`. -/
inductive PtyOp : Type where
  /-- `pty_alloc` -/
  | alloc : PtyOp
  /-- one of the two write calls -/
  | write : PtyDir → ℤ → Option (List UInt8) → PtyOp
  /-- one of the two read calls, with the nullness of `buf` and `len` -/
  | read : PtyDir → ℤ → Bool → ℕ → PtyOp
  deriving DecidableEq, Repr

/-- What a call gives back: its value, and the bytes it has stored. A write stores none. -/
structure PtyRet : Type where
  /-- the returned value -/
  value : ℤ
  /-- the bytes stored to the caller's buffer -/
  out : List UInt8

/-- Perform one call. -/
def ptyStep (p : Ptys) : PtyOp → Ptys × PtyRet
  | .alloc => ((ptyAlloc p).1, ⟨(ptyAlloc p).2, []⟩)
  | .write d ptyId buf => ((ptyWrite d p ptyId buf).1, ⟨(ptyWrite d p ptyId buf).2, []⟩)
  | .read d ptyId nonNull len =>
    ((ptyRead d p ptyId nonNull len).1,
      ⟨(ptyRead d p ptyId nonNull len).2.length, (ptyRead d p ptyId nonNull len).2⟩)

/-- The record of one call, with the table before and after it. A run is a list of these, so that
what was accepted, returned and lost can be summed up over any part of it. -/
structure PtyCall : Type where
  /-- the table before the call -/
  before : Ptys
  /-- the call -/
  op : PtyOp
  /-- what it gave back -/
  ret : PtyRet
  /-- the table after the call -/
  after : Ptys

/-- The record of performing `op` at `p`. -/
def ptyCall (p : Ptys) (op : PtyOp) : PtyCall :=
  ⟨p, op, (ptyStep p op).2, (ptyStep p op).1⟩

/-- The table after a run, whoever makes the calls and with whatever arguments. -/
def ptyRun (p : Ptys) (ops : List PtyOp) : Ptys := ops.foldl (fun p op => (ptyStep p op).1) p

/-- The record of a run, call by call. -/
def ptyCalls (p : Ptys) : List PtyOp → List PtyCall
  | [] => []
  | op :: ops => ptyCall p op :: ptyCalls (ptyStep p op).1 ops

namespace PtyCall

/-- The prefix the call got accepted into direction `d` of slot `i`: as many bytes as its value
says, from the front of the buffer. -/
def accepted (c : PtyCall) (i : ℕ) (d : PtyDir) : List UInt8 :=
  match c.op with
  | .write e ptyId (some bytes) =>
    if ptyId = i ∧ e = d then bytes.take c.ret.value.toNat else []
  | _ => []

/-- The bytes the call read from direction `d` of slot `i`; none if it is another kind of call, or
for another queue. -/
def returned (c : PtyCall) (i : ℕ) (d : PtyDir) : List UInt8 :=
  match c.op with
  | .read e ptyId _ _ => if ptyId = i ∧ e = d then c.ret.out else []
  | _ => []

/-- The bytes a valid write was asked for and did not accept. The caller can tell from the value;
the table only counts them. -/
def lost (c : PtyCall) : ℕ :=
  match c.op with
  | .write _ ptyId (some bytes) =>
    if ptyIsValid c.before ptyId then bytes.length - c.ret.value.toNat else 0
  | _ => 0

/-- A transfer call with an invalid id or a null buffer. A length of 0 is not invalid. -/
def Invalid (c : PtyCall) : Prop :=
  match c.op with
  | .alloc => False
  | .write _ ptyId buf => ptyIsValid c.before ptyId = false ∨ buf = none
  | .read _ ptyId nonNull _ => ptyIsValid c.before ptyId = false ∨ nonNull = false

/-- The call returns the number of bytes that fit (a write) or that are there
(a read). -/
def Counted (c : PtyCall) : Prop :=
  match c.op with
  | .alloc => True
  | .write d ptyId buf => ∀ bytes, buf = some bytes → ptyIsValid c.before ptyId = true →
      c.ret.value =
        (min bytes.length (ptyQueueSize - 1 - (c.before.queued ptyId.toNat d).length) : ℕ)
  | .read d ptyId nonNull len => nonNull = true → ptyIsValid c.before ptyId = true →
      c.ret.value = (min len (c.before.queued ptyId.toNat d).length : ℕ) ∧
      c.ret.value = c.ret.out.length

end PtyCall

/-! ## One call -/

/-- What one call guarantees from any table that satisfies the invariant. It is the specification
of all five calls at once: the second field says of each queue that bytes are neither lost nor
doubled nor reordered, and the others say what the value and the two counters tell. -/
structure PtyCallOk (c : PtyCall) : Prop where
  /-- the invariant is kept -/
  ok : c.after.Ok
  /-- no queue loses, gains or reorders a byte -/
  conserved : ∀ i d, c.before.queued i d ++ c.accepted i d =
    c.returned i d ++ c.after.queued i d
  /-- the count returned -/
  counted : c.Counted
  /-- the drop counter -/
  dropped : c.after.gPtyDroppedBytes = c.before.gPtyDroppedBytes + UInt64.ofNat c.lost
  /-- an invalid call only counts itself -/
  invalid : c.Invalid → c.after = c.before.countInvalid

theorem ptyCall_alloc_ok {p : Ptys} (hp : p.Ok) : PtyCallOk (ptyCall p .alloc) := by
  obtain ⟨hok, hq, hd⟩ := ptyAlloc_spec hp
  refine ⟨hok, fun i d => ?_, trivial, ?_, fun h => h.elim⟩
  · exact (List.append_nil _).trans (hq i d).symm
  · exact hd.trans (UInt64.add_zero _).symm

/-- Nothing is transferred, and the table only counts the call. -/
theorem ptyCall_write_invalid {p : Ptys} (hp : p.Ok) (d : PtyDir) {ptyId : ℤ}
    {buf : Option (List UInt8)} (hinv : ptyIsValid p ptyId = false ∨ buf = none) :
    PtyCallOk (ptyCall p (.write d ptyId buf)) := by
  have heq := ptyWrite_invalid hinv d
  have hafter : (ptyCall p (.write d ptyId buf)).after = p.countInvalid :=
    congrArg Prod.fst heq
  refine ⟨hafter ▸ hp.counters _ _, fun i e => ?_, fun bytes hb hv => ?_, ?_, fun _ => hafter⟩
  · have hacc : (ptyCall p (.write d ptyId buf)).accepted i e = [] := by
      cases buf with
      | none => rfl
      | some bytes => simp [PtyCall.accepted, ptyCall, ptyStep, heq]
    rw [hafter, hacc]
    exact List.append_nil _
  · rcases hinv with h | h
    · exact absurd (hv.symm.trans h) (by decide)
    · exact absurd (hb.symm.trans h) (by simp)
  · have hlost : (ptyCall p (.write d ptyId buf)).lost = 0 := by
      rcases hinv with h | rfl
      · cases buf with
        | none => rfl
        | some bytes => simp [PtyCall.lost, ptyCall, h]
      · rfl
    rw [hafter, hlost]
    exact (UInt64.add_zero _).symm

theorem ptyCall_write_valid {p : Ptys} (hp : p.Ok) (d : PtyDir) {ptyId : ℤ}
    (hv : ptyIsValid p ptyId = true) (bytes : List UInt8) :
    PtyCallOk (ptyCall p (.write d ptyId (some bytes))) := by
  obtain ⟨k, -, rfl, -⟩ := ptyIsValid_iff.mp hv
  obtain ⟨hok, hq, hw, hd⟩ := ptyWrite_spec hp hv d bytes
  have hnot : ¬(ptyIsValid p k = false ∨ some bytes = none) := by simp [hv]
  refine ⟨hok, fun i e => ?_, fun bytes' hb _ => ?_, ?_, fun h => absurd h hnot⟩
  · change p.queued i e ++ (if (k : ℤ) = i ∧ d = e then
      bytes.take (Int.toNat ((ptyWrite d p k (some bytes)).2 : ℕ)) else []) =
        (ptyWrite d p k (some bytes)).1.queued i e
    rw [hq, Int.toNat_natCast]
    by_cases hie : i = k ∧ e = d
    · obtain ⟨rfl, rfl⟩ := hie
      rw [if_pos ⟨rfl, rfl⟩, if_pos ⟨rfl, rfl⟩]
    · rw [if_neg hie, if_neg (by rintro ⟨h, rfl⟩; exact hie ⟨by exact_mod_cast h.symm, rfl⟩),
        List.append_nil]
  · obtain rfl := Option.some.inj hb
    exact congrArg Nat.cast hw
  · change _ = p.gPtyDroppedBytes + UInt64.ofNat (if ptyIsValid p k then
      bytes.length - Int.toNat ((ptyWrite d p k (some bytes)).2 : ℕ) else 0)
    rw [if_pos hv, Int.toNat_natCast]
    exact hd

theorem ptyCall_write_ok {p : Ptys} (hp : p.Ok) (d : PtyDir) (ptyId : ℤ)
    (buf : Option (List UInt8)) : PtyCallOk (ptyCall p (.write d ptyId buf)) := by
  cases buf with
  | none => exact ptyCall_write_invalid hp d (Or.inr rfl)
  | some bytes =>
    cases hv : ptyIsValid p ptyId with
    | false => exact ptyCall_write_invalid hp d (Or.inl hv)
    | true => exact ptyCall_write_valid hp d hv bytes

/-- A read. It takes the front of the queue, of a length that neither the count asked for nor what
is there exceeds, and the accepted bytes stay what was read followed by what is left. -/
theorem ptyCall_read_ok {p : Ptys} (hp : p.Ok) (d : PtyDir) (ptyId : ℤ) (nonNull : Bool)
    (len : ℕ) : PtyCallOk (ptyCall p (.read d ptyId nonNull len)) := by
  by_cases hinv : ptyIsValid p ptyId = false ∨ nonNull = false
  · have heq := ptyRead_invalid hinv d len
    have hafter : (ptyCall p (.read d ptyId nonNull len)).after = p.countInvalid :=
      congrArg Prod.fst heq
    refine ⟨hafter ▸ hp.counters _ _, fun i e => ?_, fun hb hv => ?_, ?_, fun _ => hafter⟩
    · have hret : (ptyCall p (.read d ptyId nonNull len)).returned i e = [] := by
        simp [PtyCall.returned, ptyCall, ptyStep, heq]
      rw [hafter, hret]
      exact List.append_nil _
    · rcases hinv with h | h
      · exact absurd (hv.symm.trans h) (by decide)
      · exact absurd (hb.symm.trans h) (by decide)
    · rw [hafter]
      exact (UInt64.add_zero _).symm
  · obtain ⟨hv, hnn⟩ := not_or.mp hinv
    have hv : ptyIsValid p ptyId = true := by simpa using hv
    obtain rfl : nonNull = true := by simpa using hnn
    obtain ⟨k, -, rfl, -⟩ := ptyIsValid_iff.mp hv
    obtain ⟨hok, hq, hother, hl, hd⟩ := ptyRead_spec hp hv d len
    refine ⟨hok, fun i e => ?_, fun _ _ => ⟨congrArg Nat.cast hl, rfl⟩, ?_,
      fun h => absurd h hinv⟩
    · change p.queued i e ++ [] = (if (k : ℤ) = i ∧ d = e then (ptyRead d p k true len).2 else [])
        ++ (ptyRead d p k true len).1.queued i e
      rw [List.append_nil]
      by_cases hie : i = k ∧ e = d
      · obtain ⟨rfl, rfl⟩ := hie
        rw [if_pos ⟨rfl, rfl⟩]
        exact hq
      · rw [if_neg (by rintro ⟨h, rfl⟩; exact hie ⟨by exact_mod_cast h.symm, rfl⟩),
          List.nil_append, hother i e hie]
    · exact hd.trans (UInt64.add_zero _).symm

/-- Every call, from every table that satisfies the invariant. -/
theorem ptyCall_ok {p : Ptys} (hp : p.Ok) (op : PtyOp) : PtyCallOk (ptyCall p op) := by
  cases op with
  | alloc => exact ptyCall_alloc_ok hp
  | write d ptyId buf => exact ptyCall_write_ok hp d ptyId buf
  | read d ptyId nonNull len => exact ptyCall_read_ok hp d ptyId nonNull len

/-! ## Runs -/

/-- Every call of a run is one from a table that satisfies the invariant. -/
theorem ptyCalls_ok (ops : List PtyOp) :
    ∀ p : Ptys, p.Ok → ∀ c ∈ ptyCalls p ops, PtyCallOk c := by
  induction ops with
  | nil =>
    intro p _ c hc
    cases hc
  | cons op ops ih =>
    intro p hp c hc
    rcases List.mem_cons.mp hc with rfl | hc
    · exact ptyCall_ok hp op
    · exact ih _ (ptyCall_ok hp op).ok c hc

/-- Conservation telescopes over a run. -/
theorem ptyCalls_conserved (i : ℕ) (d : PtyDir) (ops : List PtyOp) :
    ∀ p : Ptys, p.Ok →
      p.queued i d ++ (ptyCalls p ops).flatMap (·.accepted i d) =
        (ptyCalls p ops).flatMap (·.returned i d) ++ (ptyRun p ops).queued i d := by
  induction ops with
  | nil =>
    intro p _
    exact List.append_nil _
  | cons op ops ih =>
    intro p hp
    have hcall := ptyCall_ok hp op
    have hrest := ih (ptyStep p op).1 hcall.ok
    have hstep : p.queued i d ++ (ptyCall p op).accepted i d =
      (ptyCall p op).returned i d ++ (ptyStep p op).1.queued i d := hcall.conserved i d
    rw [ptyCalls, List.flatMap_cons, List.flatMap_cons, ← List.append_assoc, hstep,
      List.append_assoc, hrest, List.append_assoc]
    rfl

theorem ptyCalls_dropped (ops : List PtyOp) :
    ∀ p : Ptys, p.Ok →
      (ptyRun p ops).gPtyDroppedBytes = p.gPtyDroppedBytes +
        UInt64.ofNat ((ptyCalls p ops).map PtyCall.lost).sum := by
  induction ops with
  | nil =>
    intro p _
    exact (UInt64.add_zero _).symm
  | cons op ops ih =>
    intro p hp
    have hcall := ptyCall_ok hp op
    have hstep : (ptyStep p op).1.gPtyDroppedBytes =
      p.gPtyDroppedBytes + UInt64.ofNat (ptyCall p op).lost := hcall.dropped
    change (ptyRun (ptyStep p op).1 ops).gPtyDroppedBytes = _
    rw [ih (ptyStep p op).1 hcall.ok, hstep, ptyCalls, List.map_cons, List.sum_cons, UInt64.ofNat_add,
      UInt64.add_assoc]

/-- **The PTY table carries its streams faithfully**: after any run from
`ptyInit`, what was accepted into a queue is what was read from it followed by
what it holds; every call returned the count it should; the drop counter is the
sum of the losses; an invalid call changed only its counter. -/
theorem ptyRun_streams (ops : List PtyOp) :
    (∀ i < ptyMax, ∀ d,
      (ptyCalls ptyInit ops).flatMap (·.accepted i d) =
        (ptyCalls ptyInit ops).flatMap (·.returned i d) ++ (ptyRun ptyInit ops).queued i d) ∧
    (∀ c ∈ ptyCalls ptyInit ops, c.Counted) ∧
    (ptyRun ptyInit ops).gPtyDroppedBytes =
      UInt64.ofNat ((ptyCalls ptyInit ops).map PtyCall.lost).sum ∧
    (∀ c ∈ ptyCalls ptyInit ops, c.Invalid → c.after = c.before.countInvalid) := by
  refine ⟨fun i _ d => ?_, fun c hc => (ptyCalls_ok ops _ ptyInit_ok c hc).counted, ?_,
    fun c hc => (ptyCalls_ok ops _ ptyInit_ok c hc).invalid⟩
  · have h := ptyCalls_conserved i d ops ptyInit ptyInit_ok
    rwa [queued_ptyInit, List.nil_append] at h
  · rw [ptyCalls_dropped ops _ ptyInit_ok]
    exact UInt64.zero_add _

end WaluOs
