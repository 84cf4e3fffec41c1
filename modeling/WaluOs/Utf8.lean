import Mathlib.Algebra.Group.Nat.Defs
import Mathlib.Data.List.Basic
import Mathlib.Data.Nat.Notation

/-!
# Shortest-form UTF-8

`String.utf8EncodeChar` gives the one encoding that a scalar value has. This file is
about what a decoder sees, which is not a scalar value but a lead byte and the
continuation bytes it announces (`Multibyte`). Their bits make a number, `value`, and
`shortest_iff` says which numbers make them an encoding: those that are scalar values
and that no shorter sequence could hold.
-/

namespace Utf8

/-- How many continuation bytes a lead byte announces. -/
def announced (lead : UInt8) : ℕ :=
  if lead.toNat < 0xE0 then 1
  else if lead.toNat < 0xF0 then 2
  else 3

/-- The least lead byte that announces `n` continuation bytes. -/
def leadBase (n : ℕ) : ℕ :=
  if n = 1 then 0xC0
  else if n = 2 then 0xE0
  else 0xF0

/-- The bits of a lead byte that belong to the value. -/
def leadBits (lead : UInt8) : ℕ := lead.toNat - leadBase (announced lead)

/-- The value of some more continuation bytes. -/
def extend (v : ℕ) (conts : List UInt8) : ℕ := conts.foldl (fun v b => v * 64 + b.toNat % 64) v

/-- The value of a lead byte and its continuation bytes. -/
def value (lead : UInt8) (conts : List UInt8) : ℕ := extend (leadBits lead) conts

/-- The least value that needs `n` continuation bytes. -/
def least (n : ℕ) : ℕ :=
  if n = 1 then 0x80
  else if n = 2 then 0x800
  else 0x10000

/-- A continuation byte. -/
def IsContinuation (b : UInt8) : Prop := 0x80 ≤ b ∧ b ≤ 0xBF

instance : DecidablePred IsContinuation := fun _ => inferInstanceAs (Decidable (_ ∧ _))

/-- A lead byte, and the continuation bytes it announces. -/
structure Multibyte (lead : UInt8) (conts : List UInt8) : Prop where
  /-- the lead byte -/
  isLead : 0xC0 ≤ lead ∧ lead ≤ 0xF7
  /-- as many as announced -/
  length : conts.length = announced lead
  /-- the continuation bytes -/
  conts : ∀ b ∈ conts, IsContinuation b

/-- The encoding of a scalar value. -/
def Shortest (bytes : List UInt8) : Prop := ∃ ch : Char, String.utf8EncodeChar ch = bytes

variable {lead : UInt8} {conts : List UInt8} {v : ℕ}

theorem char_toNat_lt (ch : Char) : ch.toNat < 0x110000 := by
  have hvalid : ch.toNat.isValidChar := ch.valid
  rw [Nat.isValidChar] at hvalid
  omega

/-! ## Bytes as numbers -/

/-- A continuation byte is made of six bits. -/
theorem continuation_ofNat {n : ℕ} (hn : n < 64) :
    IsContinuation (UInt8.ofNat (n + 0x80)) ∧ (UInt8.ofNat (n + 0x80)).toNat % 64 = n := by
  have hall : ∀ n < 64, IsContinuation (UInt8.ofNat (n + 0x80)) ∧
      (UInt8.ofNat (n + 0x80)).toNat % 64 = n := by decide
  exact hall n hn

/-- A continuation byte is its six bits. -/
theorem IsContinuation.eq {b : UInt8} (h : IsContinuation b) :
    UInt8.ofNat (b.toNat % 64 + 0x80) = b := by
  have hlo : 0x80 ≤ b.toNat := UInt8.le_iff_toNat_le.mp h.1
  have hhi : b.toNat ≤ 0xBF := UInt8.le_iff_toNat_le.mp h.2
  have hbits : b.toNat % 64 + 0x80 = b.toNat := by omega
  rw [hbits, UInt8.ofNat_toNat]

/-- A lead byte is made of its kind and the bits that belong to the value. -/
theorem lead_ofNat {n x : ℕ} (hn : n ∈ [1, 2, 3]) (hx : x < 2 ^ (6 - n)) :
    announced (UInt8.ofNat (x + leadBase n)) = n ∧ leadBits (UInt8.ofNat (x + leadBase n)) = x ∧
      0xC0 ≤ UInt8.ofNat (x + leadBase n) ∧ UInt8.ofNat (x + leadBase n) ≤ 0xF7 := by
  have hall : ∀ n ∈ [1, 2, 3], ∀ x < 2 ^ (6 - n),
      announced (UInt8.ofNat (x + leadBase n)) = n ∧ leadBits (UInt8.ofNat (x + leadBase n)) = x ∧
        0xC0 ≤ UInt8.ofNat (x + leadBase n) ∧ UInt8.ofNat (x + leadBase n) ≤ 0xF7 := by
    decide
  exact hall n hn x hx

/-- The three kinds of lead bytes. -/
theorem announced_mem (lead : UInt8) : announced lead ∈ [1, 2, 3] := by
  rw [announced]
  split_ifs <;> simp

/-- A lead byte is its kind and its bits. -/
theorem lead_eq (hlead : 0xC0 ≤ lead ∧ lead ≤ 0xF7) :
    UInt8.ofNat (leadBits lead + leadBase (announced lead)) = lead ∧
      leadBits lead < 2 ^ (6 - announced lead) := by
  have hlo : 0xC0 ≤ lead.toNat := UInt8.le_iff_toNat_le.mp hlead.1
  have hhi : lead.toNat ≤ 0xF7 := UInt8.le_iff_toNat_le.mp hlead.2
  have hbounds : leadBase (announced lead) ≤ lead.toNat ∧
      lead.toNat - leadBase (announced lead) < 2 ^ (6 - announced lead) := by
    rw [announced, leadBase]
    split_ifs <;> simp at * <;> omega
  refine ⟨?_, hbounds.2⟩
  rw [leadBits, Nat.sub_add_cancel hbounds.1, UInt8.ofNat_toNat]

/-- The bits of a sequence never exceed twenty-one. -/
theorem Multibyte.capacity (h : Multibyte lead conts) :
    (leadBits lead + 1) * 64 ^ conts.length ≤ 2 ^ 21 := by
  have hbits := (lead_eq h.isLead).2
  have hkind := announced_mem lead
  rw [h.length]
  simp only [List.mem_cons, List.not_mem_nil, or_false] at hkind
  rcases hkind with hn | hn | hn <;> rw [hn] at hbits ⊢ <;> omega

/-- A sequence has a last byte behind its lead byte. -/
theorem Multibyte.last (h : Multibyte lead conts) : ∃ init last, conts = init ++ [last] := by
  have hne : conts ≠ [] := by
    rintro rfl
    have hall : ∀ n ∈ [1, 2, 3], 0 ≠ n := by decide
    exact hall _ (announced_mem lead) h.length
  exact ⟨conts.dropLast, conts.getLast hne, (List.dropLast_append_getLast hne).symm⟩

/-- Six more bits need six more bits of room. -/
theorem extend_room (v : ℕ) (b : UInt8) (n : ℕ) :
    (v * 64 + b.toNat % 64 + 1) * 64 ^ n ≤ (v + 1) * 64 ^ (n + 1) := by
  have hb : b.toNat % 64 < 64 := Nat.mod_lt _ (by decide)
  calc (v * 64 + b.toNat % 64 + 1) * 64 ^ n
      ≤ ((v + 1) * 64) * 64 ^ n := Nat.mul_le_mul_right _ (by omega)
    _ = (v + 1) * 64 ^ (n + 1) := by rw [mul_assoc, ← pow_succ']

/-- Every continuation byte adds six bits. -/
theorem extend_lt (conts : List UInt8) (v : ℕ) : extend v conts < (v + 1) * 64 ^ conts.length := by
  induction conts generalizing v with
  | nil =>
    rw [List.length_nil, pow_zero, mul_one]
    exact Nat.lt_succ_self v
  | cons b conts ih => exact Nat.lt_of_lt_of_le (ih _) (extend_room v b _)

/-! ## Bits -/

/-- The bytes that hold some bits: those of the lead byte, and six of each other one. -/
def spell (n x : ℕ) (digits : List ℕ) : List UInt8 :=
  UInt8.ofNat (x + leadBase n) :: digits.map fun d => UInt8.ofNat (d + 0x80)

/-- `v` fills `n` continuation bytes, and its bits are `x` and `digits`. -/
structure Digits (n x : ℕ) (digits : List ℕ) (v : ℕ) : Prop where
  /-- up to three continuation bytes -/
  kind : n ∈ [1, 2, 3]
  /-- the bits of the lead byte -/
  leadBound : x < 2 ^ (6 - n)
  /-- the continuation bytes -/
  length : digits.length = n
  /-- their bits -/
  sixBits : ∀ d ∈ digits, d < 64
  /-- the value -/
  holds : digits.foldl (fun v d => v * 64 + d) x = v
  /-- no fewer bytes can hold it -/
  minimal : least n ≤ v

/-- Every value that is not ASCII has digits. -/
theorem exists_digits (hlo : 0x80 ≤ v) (hhi : v < 0x110000) : ∃ n x digits, Digits n x digits v := by
  rcases Nat.lt_or_ge v 0x800 with htwo | htwo
  · refine ⟨1, v / 64, [v % 64], by decide, ?_, rfl, ?_, ?_, hlo⟩
    all_goals simp
    all_goals omega
  rcases Nat.lt_or_ge v 0x10000 with hthree | hthree
  · refine ⟨2, v / 4096, [v / 64 % 64, v % 64], by decide, ?_, rfl, ?_, ?_, htwo⟩
    all_goals simp
    all_goals omega
  · refine ⟨3, v / 262144, [v / 4096 % 64, v / 64 % 64, v % 64], by decide, ?_, rfl, ?_, ?_, hthree⟩
    all_goals simp
    all_goals omega

/-- Digits are encoded as they are: the encoder splits the number of a character into the same
digits, and adds the same marks to them. -/
theorem Digits.encode {n x : ℕ} {digits : List ℕ} {ch : Char} (h : Digits n x digits ch.toNat) :
    String.utf8EncodeChar ch = spell n x digits := by
  obtain ⟨hn, hx, hlen, hdigits, hvalue, hleast⟩ := h
  have hmax := char_toNat_lt ch
  rw [String.utf8EncodeChar]
  simp only [Char.toNat_val]
  generalize ch.toNat = v at *
  simp only [List.mem_cons, List.not_mem_nil, or_false] at hn
  rcases hn with rfl | rfl | rfl
  · obtain ⟨a, rfl⟩ := List.length_eq_one_iff.mp hlen
    have ha := List.forall_mem_singleton.mp hdigits
    have hv : x * 64 + a = v := hvalue
    have hlow : 0x80 ≤ v := hleast
    have hlead : v / 64 % 0x20 = x := by omega
    have hlast : v % 0x40 = a := by omega
    rw [if_neg (by omega), if_pos (by omega), hlead, hlast]
    rfl
  · obtain ⟨a, b, rfl⟩ := List.length_eq_two.mp hlen
    obtain ⟨ha, hb⟩ := List.forall_mem_cons.mp hdigits
    have hb := List.forall_mem_singleton.mp hb
    have hv : (x * 64 + a) * 64 + b = v := hvalue
    have hlow : 0x800 ≤ v := hleast
    have hlead : v / 4096 % 0x10 = x := by omega
    have hmiddle : v / 64 % 0x40 = a := by omega
    have hlast : v % 0x40 = b := by omega
    rw [if_neg (by omega), if_neg (by omega), if_pos (by omega), hlead, hmiddle, hlast]
    rfl
  · obtain ⟨a, b, c, rfl⟩ := List.length_eq_three.mp hlen
    obtain ⟨ha, hbc⟩ := List.forall_mem_cons.mp hdigits
    obtain ⟨hb, hc⟩ := List.forall_mem_cons.mp hbc
    have hc := List.forall_mem_singleton.mp hc
    have hv : ((x * 64 + a) * 64 + b) * 64 + c = v := hvalue
    have hlow : 0x10000 ≤ v := hleast
    have hlead : v / 262144 % 0x08 = x := by omega
    have hsecond : v / 4096 % 0x40 = a := by omega
    have hthird : v / 64 % 0x40 = b := by omega
    have hlast : v % 0x40 = c := by omega
    rw [if_neg (by omega), if_neg (by omega), if_neg (by omega), hlead, hsecond, hthird, hlast]
    rfl

/-- A sequence that is put together from its bits. -/
theorem Digits.multibyte {n x : ℕ} {digits : List ℕ} (h : Digits n x digits v) :
    ∃ lead conts, spell n x digits = lead :: conts ∧ Multibyte lead conts ∧
      least (announced lead) ≤ v ∧ value lead conts = v := by
  obtain ⟨hannounced, hbits, hlead⟩ := lead_ofNat h.kind h.leadBound
  refine ⟨_, _, rfl, ⟨hlead, ?_, ?_⟩, ?_, ?_⟩
  · rw [List.length_map, h.length, hannounced]
  · intro b hb
    obtain ⟨d, hd, rfl⟩ := List.mem_map.mp hb
    exact (continuation_ofNat (h.sixBits d hd)).1
  · rw [hannounced]
    exact h.minimal
  · rw [value, hbits, extend, List.foldl_map, ← h.holds]
    refine List.foldl_ext _ _ x fun v d hd => ?_
    rw [(continuation_ofNat (h.sixBits d hd)).2]

/-- The bits of a sequence. -/
def digitsOf (conts : List UInt8) : List ℕ := conts.map fun b => b.toNat % 64

theorem Multibyte.digits (h : Multibyte lead conts)
    (hleast : least (announced lead) ≤ value lead conts) :
    Digits (announced lead) (leadBits lead) (digitsOf conts) (value lead conts) := by
  refine ⟨announced_mem lead, (lead_eq h.isLead).2, ?_, ?_, ?_, hleast⟩
  · rw [digitsOf, List.length_map, h.length]
  · intro d hd
    obtain ⟨b, -, rfl⟩ := List.mem_map.mp hd
    exact Nat.mod_lt _ (by decide)
  · rw [digitsOf, List.foldl_map]
    rfl

theorem Multibyte.spell_eq (h : Multibyte lead conts) :
    spell (announced lead) (leadBits lead) (digitsOf conts) = lead :: conts := by
  rw [spell, (lead_eq h.isLead).1, digitsOf, List.map_map]
  refine congrArg _ ((List.map_congr_left fun b hb => ?_).trans (List.map_id conts))
  exact (h.conts b hb).eq

/-! ## Encoding -/

/-- A character that is not ASCII is encoded by a lead byte and continuation bytes whose
value is the character. -/
theorem utf8EncodeChar_multibyte {ch : Char} (hch : 0x80 ≤ ch.toNat) :
    ∃ lead conts, String.utf8EncodeChar ch = lead :: conts ∧ Multibyte lead conts ∧
      least (announced lead) ≤ ch.toNat ∧ value lead conts = ch.toNat := by
  obtain ⟨n, x, digits, hdigits⟩ := exists_digits hch (char_toNat_lt ch)
  rw [hdigits.encode]
  exact hdigits.multibyte

/-- An ASCII character is encoded by itself. -/
theorem utf8EncodeChar_ascii {ch : Char} (hch : ch.toNat < 0x80) :
    String.utf8EncodeChar ch = [UInt8.ofNat ch.toNat] := if_pos (Nat.le_of_lt_succ hch)

/-- **Which values are encoded**: scalar values that need so many bytes. -/
theorem shortest_iff (h : Multibyte lead conts) :
    Shortest (lead :: conts) ↔
      least (announced lead) ≤ value lead conts ∧ (value lead conts).isValidChar := by
  constructor
  · rintro ⟨ch, hch⟩
    rcases Nat.lt_or_ge ch.toNat 0x80 with hlow | hhigh
    · rw [utf8EncodeChar_ascii hlow] at hch
      -- A lead byte always announces something.
      have hnone : announced lead = 0 := by rw [← h.length, ← (List.cons.inj hch).2, List.length_nil]
      have hmem := announced_mem lead
      rw [hnone] at hmem
      exact absurd hmem (by decide)
    · obtain ⟨lead', conts', hch', -, hleast, hvalue⟩ := utf8EncodeChar_multibyte hhigh
      obtain ⟨rfl, rfl⟩ := List.cons.inj (hch'.symm.trans hch)
      rw [hvalue]
      exact ⟨hleast, ch.valid⟩
  · rintro ⟨hleast, hvalid⟩
    have hdigits : Digits _ _ _ (Char.ofNatAux (value lead conts) hvalid).toNat := h.digits hleast
    exact ⟨_, hdigits.encode.trans h.spell_eq⟩

/-! ## Sequences that are cut short -/

/-- A lead byte. -/
def IsLead (b : UInt8) : Prop := 0xC0 ≤ b ∧ b ≤ 0xF7

instance : DecidablePred IsLead := fun _ => inferInstanceAs (Decidable (_ ∧ _))

/-- How many continuation bytes a decoder waits for after `b`, if it waited for `n` before.
A byte that is not the continuation byte it waits for ends the sequence, and is lost. -/
def awaits (n : ℕ) (b : UInt8) : ℕ :=
  if n = 0 then (if IsLead b then announced b else 0)
  else if IsContinuation b then n - 1
  else 0

/-- `Settled n bytes`: to a decoder that waits for `n` continuation bytes, `bytes` are whole
sequences, sequences that some other byte has cut short, and bytes that begin nothing. -/
inductive Settled : ℕ → List UInt8 → Prop where
  /-- nothing at all -/
  | nil : Settled 0 []
  /-- a byte that begins no sequence -/
  | stray {b : UInt8} {rest : List UInt8} : ¬IsLead b → Settled 0 rest → Settled 0 (b :: rest)
  /-- a lead byte -/
  | lead {b : UInt8} {rest : List UInt8} :
    IsLead b → Settled (announced b) rest → Settled 0 (b :: rest)
  /-- the continuation bytes that are waited for -/
  | whole {conts rest : List UInt8} :
    (∀ b ∈ conts, IsContinuation b) → Settled 0 rest → Settled conts.length (conts ++ rest)
  /-- too few of them, and a byte that is not one -/
  | cut {n : ℕ} {conts : List UInt8} {b : UInt8} {rest : List UInt8} :
    (∀ b ∈ conts, IsContinuation b) → conts.length < n → ¬IsContinuation b → Settled 0 rest →
    Settled n (conts ++ b :: rest)

theorem IsLead.not_isContinuation {b : UInt8} (h : IsLead b) : ¬IsContinuation b := fun hcont =>
  absurd (UInt8.le_trans h.1 hcont.2) (by decide)

theorem IsContinuation.not_isLead {b : UInt8} (h : IsContinuation b) : ¬IsLead b := fun hlead =>
  hlead.not_isContinuation h

theorem awaits_lead {b : UInt8} (hb : IsLead b) : awaits 0 b = announced b := by
  rw [awaits, if_pos rfl, if_pos hb]

theorem awaits_stray {b : UInt8} (hb : ¬IsLead b) : awaits 0 b = 0 := by
  rw [awaits, if_pos rfl, if_neg hb]

theorem awaits_continuation {b : UInt8} (hb : IsContinuation b) (n : ℕ) : awaits (n + 1) b = n := by
  rw [awaits, if_neg n.succ_ne_zero, if_pos hb, Nat.add_sub_cancel]

theorem awaits_other {n : ℕ} {b : UInt8} (hn : n ≠ 0) (hb : ¬IsContinuation b) : awaits n b = 0 := by
  rw [awaits, if_neg hn, if_neg hb]

/-- Continuation bytes are counted. -/
theorem foldl_awaits_continuations (conts : List UInt8) (n : ℕ)
    (hconts : ∀ b ∈ conts, IsContinuation b) :
    conts.foldl awaits (conts.length + n) = n := by
  induction conts with
  | nil => exact Nat.zero_add n
  | cons b conts ih =>
    obtain ⟨hb, hrest⟩ := List.forall_mem_cons.mp hconts
    rw [List.foldl_cons, List.length_cons, Nat.add_right_comm, awaits_continuation hb]
    exact ih hrest

/-- One more continuation byte in front. -/
theorem Settled.continuation {n : ℕ} {b : UInt8} {rest : List UInt8} (hb : IsContinuation b)
    (h : Settled n rest) : Settled (n + 1) (b :: rest) := by
  have hsingle : ∀ x ∈ [b], IsContinuation x := List.forall_mem_singleton.mpr hb
  cases h with
  | nil => exact .whole hsingle .nil
  | stray hstray hrest => exact .whole hsingle (.stray hstray hrest)
  | lead hlead hrest => exact .whole hsingle (.lead hlead hrest)
  | @whole conts rest hconts hrest =>
    have hall : ∀ x ∈ b :: conts, IsContinuation x := List.forall_mem_cons.mpr ⟨hb, hconts⟩
    exact .whole hall hrest
  | @cut _ conts b' rest hconts hless hother hrest =>
    have hall : ∀ x ∈ b :: conts, IsContinuation x := List.forall_mem_cons.mpr ⟨hb, hconts⟩
    exact .cut hall (Nat.succ_lt_succ hless) hother hrest

/-- **When nothing is waited for**: the bytes break off inside no sequence. -/
theorem foldl_awaits_eq_zero_iff (bytes : List UInt8) (n : ℕ) :
    bytes.foldl awaits n = 0 ↔ Settled n bytes := by
  constructor
  · induction bytes generalizing n with
    | nil =>
      intro hn
      obtain rfl : n = 0 := hn
      exact .nil
    | cons b rest ih =>
      intro h
      rw [List.foldl_cons] at h
      cases n with
      | zero =>
        by_cases hb : IsLead b
        · rw [awaits_lead hb] at h
          exact .lead hb (ih _ h)
        · rw [awaits_stray hb] at h
          exact .stray hb (ih _ h)
      | succ n =>
        by_cases hb : IsContinuation b
        · rw [awaits_continuation hb] at h
          exact .continuation hb (ih _ h)
        · rw [awaits_other n.succ_ne_zero hb] at h
          have hnone : ∀ x ∈ ([] : List UInt8), IsContinuation x := List.forall_mem_nil _
          exact .cut hnone n.succ_pos hb (ih _ h)
  · intro h
    induction h with
    | nil => rfl
    | stray hb _ ih => rw [List.foldl_cons, awaits_stray hb, ih]
    | lead hb _ ih => rw [List.foldl_cons, awaits_lead hb, ih]
    | @whole conts rest hconts _ ih =>
      have hdone := foldl_awaits_continuations conts 0 hconts
      rw [List.foldl_append]
      exact (congrArg (rest.foldl awaits) hdone).trans ih
    | @cut n conts b rest hconts hless hb _ ih =>
      obtain ⟨k, rfl⟩ := Nat.exists_eq_add_of_lt hless
      have hdone := foldl_awaits_continuations conts (k + 1) hconts
      rw [List.foldl_append, Nat.add_assoc, hdone, List.foldl_cons, awaits_other k.succ_ne_zero hb,
        ih]

end Utf8
