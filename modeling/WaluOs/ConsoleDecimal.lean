import Mathlib.Data.Nat.Digits.Lemmas
import WaluOs.ControlSequences

/-!
# Decimal numerals

`console_write_dec` fills a buffer with the digits of its argument, the last one first, and puts
them from the back. What it puts is the one canonical numeral of the argument, and the loop ends
because nothing is left of the argument, never because the buffer is full
(`consoleWriteDec_canonical`).
-/

namespace WaluOs

/-! ## The loops -/

/-- `sizeof(buf)` of `console_write_dec`. -/
abbrev decBufSize : ℕ := 21

/-- The filling loop of `console_write_dec`: what is in `buf` and what is left of `value`, with
`room` cells of the buffer still free. -/
def decFill : ℕ → List UInt8 → UInt64 → List UInt8 × UInt64
  | 0, buf, value => (buf, value)
  | room + 1, buf, value =>
    if value > 0 then decFill room (buf ++ [(0x30 + value % 10).toUInt8]) (value / 10)
    else (buf, value)

/-- `console_write_dec` -/
def consoleWriteDec (c : Console) (value : UInt64) : Console :=
  if value = 0 then
    consolePutc c 0x30
  else
    (decFill decBufSize [] value).1.foldr (fun digit c => consolePutc c digit) c

/-! ## Numerals -/

/-- A decimal numeral of `v` without needless zeros. -/
structure IsNumeral (ds : List UInt8) (v : ℕ) : Prop where
  digits : ∀ b ∈ ds, IsDigit b
  written : ds ≠ []
  leading : ds.head? = some 0x30 → ds = [0x30]
  value : fieldValue ds = v

/-- The digit of a number below 10. -/
def digitByte (d : ℕ) : UInt8 := UInt8.ofNat (0x30 + d)

/-- The number below 10 of a digit. -/
def digitNat (b : UInt8) : ℕ := (b - 0x30).toNat

theorem digitByte_toNat {d : ℕ} (hd : d < 10) : (digitByte d).toNat = 0x30 + d :=
  UInt8.toNat_ofNat_of_lt' (by show 0x30 + d < 256; omega)

theorem isDigit_iff (b : UInt8) : IsDigit b ↔ 0x30 ≤ b.toNat ∧ b.toNat ≤ 0x39 := Iff.rfl

theorem digitByte_isDigit {d : ℕ} (hd : d < 10) : IsDigit (digitByte d) := by
  rw [isDigit_iff, digitByte_toNat hd]
  omega

theorem IsDigit.toNat {b : UInt8} (hb : IsDigit b) : b.toNat = 0x30 + digitNat b := by
  have hsub : digitNat b = b.toNat - 0x30 := UInt8.toNat_sub_of_le b 0x30 hb.1
  have hlow : 0x30 ≤ b.toNat := hb.1
  omega

theorem IsDigit.nat_lt {b : UInt8} (hb : IsDigit b) : digitNat b < 10 := by
  have hsplit := hb.toNat
  have hhigh : b.toNat ≤ 0x39 := hb.2
  omega

theorem digitNat_digitByte {d : ℕ} (hd : d < 10) : digitNat (digitByte d) = d := by
  have hsplit := (digitByte_isDigit hd).toNat
  rw [digitByte_toNat hd] at hsplit
  omega

theorem IsDigit.byte {b : UInt8} (hb : IsDigit b) : digitByte (digitNat b) = b := by
  refine UInt8.toNat_inj.mp ?_
  rw [digitByte_toNat hb.nat_lt, hb.toNat]

/-- A field is read as the number of its digits. -/
theorem fieldValue_eq_ofDigits (ds : List UInt8) :
    fieldValue ds = Nat.ofDigits 10 (ds.reverse.map digitNat) := by
  rw [fieldValue, Nat.ofDigits_eq_foldr, List.foldr_map, List.foldr_reverse]
  congr 1
  funext v b
  show v * 10 + digitNat b = digitNat b + 10 * v
  omega

/-- The canonical numeral of `v`. -/
def numeral (v : ℕ) : List UInt8 :=
  if v = 0 then [0x30] else ((Nat.digits 10 v).map digitByte).reverse

theorem digits_map_digitNat (v : ℕ) :
    ((Nat.digits 10 v).map digitByte).map digitNat = Nat.digits 10 v := by
  rw [List.map_map]
  refine (List.map_congr_left fun d hd => ?_).trans (List.map_id _)
  exact digitNat_digitByte (Nat.digits_lt_base (by decide) hd)

/-- It is one. -/
theorem numeral_isNumeral (v : ℕ) : IsNumeral (numeral v) v := by
  rw [numeral]
  split
  · rename_i hv
    rw [hv]
    exact ⟨List.forall_mem_singleton.mpr (by decide), List.cons_ne_nil _ _, fun _ => rfl, rfl⟩
  · rename_i hv
    have hdigits : Nat.digits 10 v ≠ [] := Nat.digits_ne_nil_iff_ne_zero.mpr hv
    refine ⟨fun b hb => ?_, fun hnil => hdigits ?_, fun hzero => ?_, ?_⟩
    · obtain ⟨d, hd, rfl⟩ := List.mem_map.mp (List.mem_reverse.mp hb)
      exact digitByte_isDigit (Nat.digits_lt_base (by decide) hd)
    · exact List.map_eq_nil_iff.mp (List.reverse_eq_nil_iff.mp hnil)
    · -- the first byte is that of the last digit, which is not 0
      rw [List.head?_reverse, List.getLast?_map, List.getLast?_eq_getLast_of_ne_nil hdigits] at hzero
      have hlast := Nat.getLast_digit_ne_zero 10 hv
      have hten := Nat.digits_lt_base (b := 10) (by decide) (List.getLast_mem hdigits)
      refine absurd ?_ hlast
      rw [← digitNat_digitByte hten, Option.some.inj hzero]
      rfl
    · rw [fieldValue_eq_ofDigits, List.reverse_reverse, digits_map_digitNat, Nat.ofDigits_digits]

/-- And the only one. The last digit of a numeral is the remainder by 10, and what stands in front
of it is the numeral of the quotient. -/
theorem IsNumeral.unique {ds : List UInt8} {v : ℕ} (h : IsNumeral ds v) : ds = numeral v := by
  obtain ⟨b, rest, rfl⟩ := List.exists_cons_of_ne_nil h.written
  by_cases hzero : b = 0x30
  · have hds := h.leading (congrArg some hzero)
    have hv : v = 0 := by
      rw [← h.value, hds]
      rfl
    rw [numeral, if_pos hv, hds]
  · -- the digits from the last on, of which the last is not 0
    let digits := rest.reverse.map digitNat ++ [digitNat b]
    have hreverse : (b :: rest).reverse.map digitNat = digits := by
      rw [List.reverse_cons, List.map_append]
      rfl
    have hten : ∀ d ∈ digits, d < 10 := by
      intro d hd
      rw [← hreverse] at hd
      obtain ⟨b', hb', rfl⟩ := List.mem_map.mp hd
      exact (h.digits b' (List.mem_reverse.mp hb')).nat_lt
    have hlast : ∀ hne : digits ≠ [], digits.getLast hne ≠ 0 := by
      intro hne hlast
      rw [List.getLast_concat] at hlast
      rw [← (h.digits b List.mem_cons_self).byte, hlast] at hzero
      exact hzero rfl
    have hdigits : Nat.digits 10 v = digits := by
      rw [← h.value, fieldValue_eq_ofDigits, hreverse, Nat.digits_ofDigits 10 (by decide) _ hten hlast]
    have hv : v ≠ 0 := by
      refine (Nat.digits_ne_nil_iff_ne_zero (b := 10)).mp ?_
      rw [hdigits]
      exact List.append_ne_nil_of_right_ne_nil _ (List.cons_ne_nil _ _)
    have hbytes : ((b :: rest).map digitNat).map digitByte = b :: rest := by
      rw [List.map_map]
      refine (List.map_congr_left fun b' hb' => ?_).trans (List.map_id _)
      exact (h.digits b' hb').byte
    rw [numeral, if_neg hv, hdigits, ← hreverse, List.map_reverse, List.map_reverse,
      List.reverse_reverse, hbytes]

/-! ## What is put -/

theorem digitByte_eq (value : UInt64) :
    (0x30 + value % 10).toUInt8 = digitByte (value.toNat % 10) := by
  refine UInt8.toNat_inj.mp ?_
  have hten : value.toNat % 10 < 10 := Nat.mod_lt _ (by decide)
  rw [digitByte_toNat hten, UInt64.toNat_toUInt8, UInt64.toNat_add, UInt64.toNat_mod]
  show (0x30 + value.toNat % 10) % 2 ^ 64 % 2 ^ 8 = 0x30 + value.toNat % 10
  omega

/-- The buffer takes the digits if it has room for them. -/
theorem decFill_digits (room : ℕ) :
    ∀ (buf : List UInt8) (value : UInt64), (Nat.digits 10 value.toNat).length ≤ room →
      decFill room buf value = (buf ++ (Nat.digits 10 value.toNat).map digitByte, 0) := by
  induction room with
  | zero =>
    intro buf value hroom
    have hnil := List.eq_nil_of_length_eq_zero (Nat.le_zero.mp hroom)
    have hzero : value = 0 := UInt64.toNat_inj.mp (Nat.digits_eq_nil_iff_eq_zero.mp hnil)
    rw [hnil, hzero]
    simp [decFill]
  | succ room ih =>
    intro buf value hroom
    rw [decFill]
    split
    · rename_i hvalue
      have hpos : 0 < value.toNat := UInt64.lt_iff_toNat_lt.mp hvalue
      rw [Nat.digits_def' (by decide) hpos] at hroom ⊢
      have hdiv : (value / 10).toNat = value.toNat / 10 := UInt64.toNat_div _ _
      rw [ih _ _ (by rw [hdiv]; exact Nat.le_of_succ_le_succ hroom), hdiv, List.append_assoc,
        digitByte_eq]
      rfl
    · rename_i hvalue
      have hzero : value = 0 := by
        refine UInt64.toNat_inj.mp ?_
        have hle : ¬0 < value.toNat := fun h => hvalue (UInt64.lt_iff_toNat_lt.mpr h)
        exact Nat.eq_zero_of_not_pos hle
      rw [hzero]
      simp

/-- 21 cells are enough for 64 bits. -/
theorem digits_length_le (value : UInt64) : (Nat.digits 10 value.toNat).length ≤ decBufSize :=
  (Nat.digits_length_le_iff (by decide) _).mpr (value.toNat_lt.trans (by decide))

/-- **`console_write_dec` puts the canonical numeral** of its argument, and the guard on the size
of its buffer never ends the loop. No number of 64 bits has more than 20 digits. -/
theorem consoleWriteDec_canonical (value : UInt64) :
    (∃ ds, (∀ ds', IsNumeral ds' value.toNat ↔ ds' = ds) ∧
      ∀ c, consoleWriteDec c value = ds.foldl consolePutc c) ∧
    (decFill decBufSize [] value).2 = 0 := by
  have hfill := decFill_digits decBufSize [] value (digits_length_le value)
  refine ⟨⟨numeral value.toNat, fun ds => ⟨IsNumeral.unique, ?_⟩, fun c => ?_⟩, by rw [hfill]⟩
  · rintro rfl
    exact numeral_isNumeral _
  · rw [consoleWriteDec, numeral]
    split
    · rename_i hzero
      rw [hzero]
      rfl
    · rename_i hvalue
      have hne : value.toNat ≠ 0 := fun h => hvalue (UInt64.toNat_inj.mp h)
      rw [if_neg hne, hfill, List.foldl_reverse]
      rfl

example : (decFill decBufSize [] 0xFFFFFFFFFFFFFFFF).1.length = 20 := by decide

end WaluOs
