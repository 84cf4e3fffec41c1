import WaluOs.SlotRing

/-!
# The command history of the Rust subsystem

Sixteen slots of 64 bytes, written in turn. `rust_history_push` keeps at most 63 bytes of a line
and fills the rest of its slot with zeros; whatever was pushed before, the slots hold the last
sixteen lines (`rustRun_history`).

`none` is a panic, or a wait for the lock that never ends: the panic handler spins, and nothing
releases the lock then. `usize` is `ℕ`; the only sums are of `head` and `count`, which stay small.

What a run keeps is `Records`: all statics as functions of the lines so far. That writing in turn
keeps the last ones is a fact about rings, and comes from the library.
-/

namespace WaluOs

open SlotRing

/-- `HISTORY_SLOTS` -/
abbrev historySlots : ℕ := 16

/-- `SLOT_LEN` -/
abbrev slotLen : ℕ := 64

/-- `struct History` -/
structure History : Type where
  /-- `entries` -/
  entries : Vector (Vector UInt8 slotLen) historySlots
  /-- `lens` -/
  lens : Vector ℕ historySlots
  /-- `head` -/
  head : ℕ
  /-- `count` -/
  count : ℕ

/-- The static variables of the Rust subsystem. The lock is a spin lock: who finds it taken spins
until another thread gives it back, and in the model such a call does not return. -/
structure RustState : Type where
  /-- `LOCK` -/
  lock : Bool
  /-- `HISTORY_COUNT` -/
  historyCount : UInt64
  /-- `HISTORY` -/
  history : History

/-! ## The code -/

/-- `History::new` -/
def History.new : History where
  entries := .replicate historySlots (.replicate slotLen 0)
  lens := .replicate historySlots 0
  head := 0
  count := 0

/-- `dest[..len].copy_from_slice(&src[..len])` -/
def copyFront (dest : Vector UInt8 slotLen) (src : List UInt8) (len : ℕ) :
    Option (Vector UInt8 slotLen) :=
  if len ≤ slotLen ∧ len ≤ src.length then
    some (.ofFn fun i => if i < len then src.getD i 0 else dest[i])
  else
    none

/-- `History::push` -/
def History.push (h : History) (src : List UInt8) : Option History :=
  let slot := h.head
  let len := min src.length (slotLen - 1)
  if hslot : slot < historySlots then do
    let dest := h.entries[slot].map fun _ => 0
    let dest ← copyFront dest src len
    some {
      entries := h.entries.set slot dest
      lens := h.lens.set slot len
      head := (h.head + 1) % historySlots
      count := if h.count < historySlots then h.count + 1 else h.count }
  else
    none

/-- The static variables as the program starts. -/
def rustBoot : RustState := ⟨false, 0, .new⟩

/-- `lock` -/
def rustLock (s : RustState) : Option RustState :=
  if s.lock then none else some { s with lock := true }

/-- `unlock` -/
def rustUnlock (s : RustState) : RustState := { s with lock := false }

/-- `rust_history_push`; `bytes` is `none` for a null pointer, and the `len` bytes behind any
other. -/
def rustHistoryPush (s : RustState) (bytes : Option (List UInt8)) : Option RustState :=
  match bytes with
  | none => some s
  | some slice =>
    if slice.length = 0 then
      some s
    else do
      let s ← rustLock s
      let history ← s.history.push slice
      let s := rustUnlock { s with history }
      some { s with historyCount := s.historyCount + 1 }

/-- `rust_history_count` -/
def rustHistoryCount (s : RustState) : UInt64 := s.historyCount

/-- Calls of `rust_history_push`, one after the other, from the state at boot on. There is no
result if one of them would wait for the lock, or panic at an index. -/
def rustRun (calls : List (Option (List UInt8))) : Option RustState :=
  calls.foldlM rustHistoryPush rustBoot

/-! ## One slot -/

/-- How much of a line is kept. A slot has 64 bytes and the last one stays 0. -/
def keptLen (line : List UInt8) : ℕ := min line.length (slotLen - 1)

/-- What a slot holds of a line. -/
def slotBytes (line : List UInt8) : List UInt8 :=
  line.take (keptLen line) ++ List.replicate (slotLen - keptLen line) 0

theorem keptLen_le_slot (line : List UInt8) : keptLen line ≤ slotLen :=
  Nat.le_trans (Nat.min_le_right _ _) (by decide)

theorem keptLen_le_length (line : List UInt8) : keptLen line ≤ line.length := Nat.min_le_left _ _

/-- Neither slice is too short, and the zeros behind the copy stay. -/
theorem copyFront_zeroed (dest : Vector UInt8 slotLen) (line : List UInt8) :
    ∃ slot, copyFront (dest.map fun _ => 0) line (keptLen line) = some slot ∧
      slot.toList = slotBytes line := by
  refine ⟨_, if_pos ⟨keptLen_le_slot line, keptLen_le_length line⟩, ?_⟩
  have hslot := keptLen_le_slot line
  have hline := keptLen_le_length line
  refine List.ext_getElem ?_ fun i hi _ => ?_
  · rw [Vector.length_toList, slotBytes, List.length_append, List.length_take,
      List.length_replicate, Nat.min_eq_left hline, Nat.add_sub_cancel' hslot]
  · rw [Vector.getElem_toList, Vector.getElem_ofFn]
    by_cases hi : i < keptLen line
    · have hget : i < line.length := hi.trans_le hline
      simp [slotBytes, hi, hget]
    · have htake : (line.take (keptLen line)).length ≤ i := by
        rw [List.length_take]
        omega
      rw [if_neg hi, Fin.getElem_fin, Vector.getElem_map]
      simp only [slotBytes, List.getElem_append_right htake, List.getElem_replicate]

/-! ## The run -/

/-- The lines that calls carry: a null pointer or an empty line is no line. These calls return at
once, so the slots are about the others. -/
def carried (calls : List (Option (List UInt8))) : List (List UInt8) :=
  calls.filterMap fun bytes => bytes.filter fun line => line.length ≠ 0

/-- The statics behind pushes of `lines`. It says of all of them what they are in terms of the
whole history: the slots hold the last 16 lines in a ring, and the counter goes on. -/
structure Records (s : RustState) (lines : List (List UInt8)) : Prop where
  unlocked : s.lock = false
  counted : s.historyCount = UInt64.ofNat lines.length
  count : s.history.count = min lines.length historySlots
  head : s.history.head = lines.length % historySlots
  entries : HoldsLast historySlots (fun j => (s.history.entries[j]?).map Vector.toList)
    (lines.map fun line => some (slotBytes line))
  lens : HoldsLast historySlots (fun j => s.history.lens[j]?)
    (lines.map fun line => some (keptLen line))

theorem records_boot : Records rustBoot [] :=
  ⟨rfl, rfl, rfl, rfl, HoldsLast.nil _, HoldsLast.nil _⟩

/-- A slot is written. -/
theorem set_eq_update {α β : Type} (f : α → β) (slots : Vector α historySlots) {slot : ℕ}
    (hslot : slot < historySlots) (x : α) :
    (fun j => ((slots.set slot x)[j]?).map f) =
      Function.update (fun j => (slots[j]?).map f) slot (some (f x)) := by
  funext j
  rw [Vector.getElem?_set, Function.update_apply]
  by_cases hj : slot = j
  · rw [if_pos hj, if_pos hj.symm]
    rfl
  · rw [if_neg hj, if_neg fun h => hj h.symm]

/-- What `History::push` does: the head slot is written. The rest of the ring is left alone, which
is what lets one lemma about rings carry the run. -/
structure Pushed (h h' : History) (line : List UInt8) : Prop where
  entries : (fun j => (h'.entries[j]?).map Vector.toList) =
    Function.update (fun j => (h.entries[j]?).map Vector.toList) h.head (some (slotBytes line))
  lens : (fun j => h'.lens[j]?) =
    Function.update (fun j => h.lens[j]?) h.head (some (keptLen line))
  head : h'.head = (h.head + 1) % historySlots
  count : h'.count = if h.count < historySlots then h.count + 1 else h.count

/-- It does not panic. -/
theorem History.push_pushed (h : History) (hslot : h.head < historySlots) (line : List UInt8) :
    ∃ h', h.push line = some h' ∧ Pushed h h' line := by
  obtain ⟨slot, hcopy, hbytes⟩ := copyFront_zeroed h.entries[h.head] line
  refine ⟨{
    entries := h.entries.set h.head slot
    lens := h.lens.set h.head (keptLen line)
    head := (h.head + 1) % historySlots
    count := if h.count < historySlots then h.count + 1 else h.count }, ?_, ?_, ?_, rfl, rfl⟩
  · rw [History.push, dif_pos hslot]
    show (copyFront _ line (keptLen line)).bind _ = _
    rw [hcopy]
    rfl
  · rw [← hbytes]
    exact set_eq_update Vector.toList h.entries hslot slot
  · have hset := set_eq_update id h.lens hslot (keptLen line)
    simpa only [Option.map_id_fun, id_eq] using hset

/-- **A line is pushed.** The lock is free, so the call gets it and gives it back, and the ring
moves on by one slot. -/
theorem Records.push {s : RustState} {lines : List (List UInt8)} (h : Records s lines)
    {line : List UInt8} (hline : line.length ≠ 0) :
    ∃ s', rustHistoryPush s (some line) = some s' ∧ Records s' (lines ++ [line]) := by
  have hslot : s.history.head < historySlots := by
    rw [h.head]
    exact Nat.mod_lt _ (by decide)
  have hlock : rustLock s = some { s with lock := true } := by
    rw [rustLock, h.unlocked]
    rfl
  have hlength : (lines ++ [line]).length = lines.length + 1 := by
    rw [List.length_append, List.length_singleton]
  obtain ⟨history, hpush, hwritten⟩ := s.history.push_pushed hslot line
  refine ⟨⟨false, s.historyCount + 1, history⟩, ?_, rfl, ?_, ?_, ?_, ?_, ?_⟩
  · rw [rustHistoryPush, if_neg hline, hlock]
    show (s.history.push line).bind _ = _
    rw [hpush]
    rfl
  · show s.historyCount + 1 = _
    rw [h.counted, hlength, UInt64.ofNat_add]
    rfl
  · show history.count = _
    rw [hwritten.count, h.count, hlength]
    split <;> omega
  · show history.head = _
    rw [hwritten.head, h.head, hlength, Nat.mod_add_mod]
  · have hentries := h.entries.push (some (slotBytes line))
    rw [List.length_map, ← h.head, ← hwritten.entries] at hentries
    rwa [List.map_append, List.map_singleton]
  · have hlens := h.lens.push (some (keptLen line))
    rw [List.length_map, ← h.head, ← hwritten.lens] at hlens
    rwa [List.map_append, List.map_singleton]

/-- What a call does. -/
theorem Records.call {s : RustState} {lines : List (List UInt8)} (h : Records s lines)
    (bytes : Option (List UInt8)) :
    ∃ s', rustHistoryPush s bytes = some s' ∧ Records s' (lines ++ carried [bytes]) := by
  cases bytes with
  | none => exact ⟨s, rfl, by rwa [show carried [none] = [] from rfl, List.append_nil]⟩
  | some line =>
    by_cases hline : line.length = 0
    · refine ⟨s, if_pos hline, ?_⟩
      have hnone : carried [some line] = [] := by
        rw [List.eq_nil_of_length_eq_zero hline]
        rfl
      rwa [hnone, List.append_nil]
    · have hsome : carried [some line] = [line] := by
        simp only [carried, List.filterMap_cons, List.filterMap_nil, Option.filter_some,
          decide_eq_true hline, if_true]
      rw [hsome]
      exact h.push hline

theorem carried_cons (bytes : Option (List UInt8)) (calls : List (Option (List UInt8))) :
    carried (bytes :: calls) = carried [bytes] ++ carried calls := by
  rw [carried, carried, carried, ← List.filterMap_append, List.singleton_append]

theorem Records.run (calls : List (Option (List UInt8))) :
    ∀ {s : RustState} {lines : List (List UInt8)}, Records s lines →
      ∃ s', calls.foldlM rustHistoryPush s = some s' ∧ Records s' (lines ++ carried calls) := by
  induction calls with
  | nil => exact fun h => ⟨_, rfl, by rwa [carried, List.filterMap_nil, List.append_nil]⟩
  | cons bytes calls ih =>
    intro s lines h
    obtain ⟨s₁, hcall, h₁⟩ := h.call bytes
    obtain ⟨s', hrun, h'⟩ := ih h₁
    refine ⟨s', ?_, ?_⟩
    · rw [List.foldlM_cons, hcall]
      exact hrun
    · rwa [List.append_assoc, ← carried_cons] at h'

/-- **The history holds the last sixteen lines**, and no call panics: the `i`-th line carried is
in slot `i % 16`. The lock is free whenever a call begins, so none waits for it. -/
theorem rustRun_history (calls : List (Option (List UInt8))) :
    ∃ s, rustRun calls = some s ∧
      ((carried calls).length < 2 ^ 64 →
        (rustHistoryCount s).toNat = (carried calls).length) ∧
      s.history.count = min (carried calls).length historySlots ∧
      s.history.head = (carried calls).length % historySlots ∧
      ∀ i line, (carried calls)[i]? = some line → (carried calls).length ≤ i + historySlots →
        (s.history.entries[i % historySlots]?).map Vector.toList =
            some (line.take (keptLen line) ++ List.replicate (slotLen - keptLen line) 0) ∧
          s.history.lens[i % historySlots]? = some (keptLen line) := by
  obtain ⟨s, hrun, h⟩ := records_boot.run calls
  rw [List.nil_append] at h
  refine ⟨s, hrun, fun hsmall => ?_, h.count, h.head, fun i line hline hlast => ⟨?_, ?_⟩⟩
  · rw [rustHistoryCount, h.counted]
    exact UInt64.toNat_ofNat_of_lt' hsmall
  · refine h.entries i _ ?_ ?_
    · rw [List.getElem?_map, hline]
      rfl
    · rwa [List.length_map]
  · refine h.lens i _ ?_ ?_
    · rw [List.getElem?_map, hline]
      rfl
    · rwa [List.length_map]

end WaluOs
