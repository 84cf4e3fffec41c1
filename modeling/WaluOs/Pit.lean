import WaluOs.Pit8254

/-!
# The timer

Channel 0 of the interval timer divides a clock of 1193182 Hz. `pit_init` makes it a square wave
and writes the divisor as two bytes, and the device takes 0 for 65536; so a frequency that is too
low for 16 bits, or higher than the clock, comes out as a quite different one. A divisor of 1 is
one that the device is not defined for. So the timer has the period that was meant exactly for
the frequencies from 19 to 596591 (`pitInit_rate_iff`).
-/

namespace WaluOs

open Pit8254

/-! ## The code -/

/-- `PIT_COMMAND` -/
abbrev pitCommand : ℕ := 0x43
/-- `PIT_CHANNEL0` -/
abbrev pitChannel0 : ℕ := 0x40
/-- `PIT_BASE_FREQUENCY` -/
abbrev pitBaseFrequency : ℕ := 1193182

/-- `outb`, as channel 0 sees it. -/
def pitOutb (c : Channel) (port : ℕ) (value : BitVec 8) : Channel :=
  if port = pitCommand then c.command value
  else if port = pitChannel0 then c.data value
  else c

/-- The frequency that `pit_init` goes by. It takes 0 for 100, and then divides by it. -/
def pitFrequency (frequencyHz : BitVec 32) : ℕ :=
  if frequencyHz = 0#32 then 100 else frequencyHz.toNat

/-- `pit_init`. The divisor is cut to 16 bits: it is 0 for a frequency above that of the clock,
and wraps for one below 19, and the timer is programmed with what comes out of it. -/
def pitInit (c : Channel) (frequencyHz : BitVec 32) : Channel :=
  let divisor := BitVec.ofNat 16 (pitBaseFrequency / pitFrequency frequencyHz)
  let c := pitOutb c pitCommand 0x36#8
  let c := pitOutb c pitChannel0 (divisor.setWidth 8)
  pitOutb c pitChannel0 ((divisor >>> 8).setWidth 8)

/-! ## What is programmed -/

/-- The divisor that the two bytes make. -/
def pitDivisor (frequencyHz : BitVec 32) : ℕ :=
  let divisor := pitBaseFrequency / pitFrequency frequencyHz % 65536
  if divisor = 0 then 65536 else divisor

/-- Two bytes make the word they were taken from. -/
theorem bytes_toNat (w : BitVec 16) :
    ((w >>> 8).setWidth 8).toNat * 256 + (w.setWidth 8).toNat = w.toNat := by
  have hlt := w.isLt
  rw [BitVec.toNat_setWidth, BitVec.toNat_setWidth, BitVec.toNat_ushiftRight,
    Nat.shiftRight_eq_div_pow]
  omega

/-- **`pit_init`**, whatever has been written to the channel before: a square wave whose count is
still to be loaded. -/
theorem pitInit_eq (c : Channel) (frequencyHz : BitVec 32) :
    pitInit c frequencyHz =
      ⟨.bothBytes, .squareWave, false, none, some (pitDivisor frequencyHz), none, true⟩ := by
  have hcommand : pitOutb c pitCommand 0x36#8 =
      ⟨.bothBytes, .squareWave, false, none, none, none, true⟩ := rfl
  have hbytes := bytes_toNat (BitVec.ofNat 16 (pitBaseFrequency / pitFrequency frequencyHz))
  have hload : ∀ low high : BitVec 8,
      pitOutb (pitOutb ⟨.bothBytes, .squareWave, false, none, none, none, true⟩ pitChannel0 low)
          pitChannel0 high =
        ⟨.bothBytes, .squareWave, false, none,
          some (countOf false (high.toNat * 256 + low.toNat)), none, true⟩ := fun _ _ => rfl
  rw [pitInit, hcommand, hload, hbytes, BitVec.toNat_ofNat]
  rfl

/-! ## Ticks -/

theorem pitDivisor_pos (frequencyHz : BitVec 32) : 0 < pitDivisor frequencyHz := by
  rw [pitDivisor]
  split_ifs <;> omega

/-- **The rate**: after the cycle that loads the count, a tick for each time the divisor fits into
the cycles, if it is not 1. -/
theorem pitInit_ticks (c : Channel) (frequencyHz : BitVec 32) (n : ℕ) :
    (pitInit c frequencyHz).ticks (n + 1) =
      if pitDivisor frequencyHz = 1 then none else some (n / pitDivisor frequencyHz) := by
  have hpos := pitDivisor_pos frequencyHz
  rw [pitInit_eq]
  generalize pitDivisor frequencyHz = d at hpos ⊢
  have hdefined : Channel.Defined ⟨.bothBytes, .squareWave, false, none, some d, none, true⟩ ↔
      d ≠ 1 := by
    constructor
    · rintro h rfl
      exact absurd (h 1 rfl (Or.inr rfl)) (by decide)
    · intro hne m hm _
      obtain rfl := Option.some.inj hm
      omega
  rw [Channel.ticks]
  by_cases hone : d = 1
  · rw [if_neg (mt hdefined.mp (not_not.mpr hone)), if_pos hone]
  · have hwave : Channel.Wave (Channel.cycle
        ⟨.bothBytes, .squareWave, false, none, some d, none, true⟩) d 0 := by
      refine ⟨rfl, rfl, by omega, hpos, (decide_eq_true (by omega)).symm, ?_⟩
      exact congrArg some (if_pos (show 0 < (d + 1) / 2 by omega)).symm
    have hhigh : Channel.rises ⟨.bothBytes, .squareWave, false, none, some d, none, true⟩ = false :=
      rfl
    rw [if_pos (hdefined.mpr hone), if_neg hone, Channel.edges, hhigh,
      if_neg Bool.false_ne_true, Channel.edges_squareWave n hwave, Nat.zero_add, Nat.zero_add]

theorem pitFrequency_pos (frequencyHz : BitVec 32) : 0 < pitFrequency frequencyHz := by
  rw [pitFrequency]
  split_ifs with hzero
  · decide
  · exact Nat.pos_of_ne_zero fun h => hzero (BitVec.eq_of_toNat_eq h)

/-- The divisor is the one that was meant. -/
theorem pitDivisor_eq_iff (frequencyHz : BitVec 32) :
    pitDivisor frequencyHz = pitBaseFrequency / pitFrequency frequencyHz ↔
      19 ≤ pitFrequency frequencyHz ∧ pitFrequency frequencyHz ≤ pitBaseFrequency := by
  have hpos := pitFrequency_pos frequencyHz
  rw [pitDivisor]
  generalize pitFrequency frequencyHz = f at hpos ⊢
  have hsmall : pitBaseFrequency / f = 0 ↔ pitBaseFrequency < f := Nat.div_eq_zero_iff_lt hpos
  have hlarge : pitBaseFrequency / f < 65536 ↔ pitBaseFrequency < 65536 * f :=
    Nat.div_lt_iff_lt_mul hpos
  constructor
  · intro heq
    have hle : pitBaseFrequency / f ≤ 65536 := by
      rw [← heq]
      split_ifs
      · exact le_rfl
      · exact (Nat.mod_lt _ (by decide)).le
    have hne : pitBaseFrequency / f ≠ 0 := by
      intro hzero
      rw [hzero] at heq
      exact absurd heq (by decide)
    have hcut : pitBaseFrequency < 65537 * f :=
      (Nat.div_lt_iff_lt_mul hpos).mp (Nat.lt_succ_of_le hle)
    exact ⟨by simp only [pitBaseFrequency] at hcut; omega, not_lt.mp (mt hsmall.mpr hne)⟩
  · rintro ⟨hlow, hhigh⟩
    have hlt : pitBaseFrequency / f < 65536 := hlarge.mpr (by simp only [pitBaseFrequency]; omega)
    rw [Nat.mod_eq_of_lt hlt, if_neg (mt hsmall.mp (not_lt.mpr hhigh))]

/-- Two divisors with the same ticks are the same. -/
theorem eq_of_div_eq {d e : ℕ} (hd : 0 < d) (h : ∀ n, n / d = n / e) : d = e := by
  have hone := h d
  rw [Nat.div_self hd] at hone
  have he : 0 < e := Nat.pos_of_ne_zero fun hzero => by
    rw [hzero, Nat.div_zero] at hone
    cases hone
  have hle : e ≤ d := by
    by_contra hlt
    rw [Nat.div_eq_of_lt (not_le.mp hlt)] at hone
    cases hone
  have hone' := h e
  rw [Nat.div_self he] at hone'
  refine le_antisymm ?_ hle
  by_contra hlt
  rw [Nat.div_eq_of_lt (not_le.mp hlt)] at hone'
  cases hone'

/-- **The timer is the one that was meant** exactly from 19 to 596591 Hz: below, the divisor is too
large for 16 bits; above, it is 1, for which a square wave is not defined; and beyond the clock it
is 0, which the device takes for 65536. -/
theorem pitInit_rate_iff (c : Channel) (frequencyHz : BitVec 32) :
    (∀ n, (pitInit c frequencyHz).ticks (n + 1) =
      some (n / (pitBaseFrequency / pitFrequency frequencyHz))) ↔
      19 ≤ pitFrequency frequencyHz ∧ pitFrequency frequencyHz ≤ 596591 := by
  have hpos := pitFrequency_pos frequencyHz
  have hiff := pitDivisor_eq_iff frequencyHz
  have hone : pitBaseFrequency / pitFrequency frequencyHz = 1 ↔
      596592 ≤ pitFrequency frequencyHz ∧ pitFrequency frequencyHz ≤ pitBaseFrequency := by
    rw [Nat.div_eq_iff hpos]
    simp only [pitBaseFrequency]
    omega
  constructor
  · intro h
    have hne : pitDivisor frequencyHz ≠ 1 := by
      intro hd
      have hzero := h 0
      rw [pitInit_ticks, if_pos hd] at hzero
      cases hzero
    have heq : pitDivisor frequencyHz = pitBaseFrequency / pitFrequency frequencyHz := by
      refine eq_of_div_eq (pitDivisor_pos _) fun n => ?_
      have hn := h n
      rw [pitInit_ticks, if_neg hne] at hn
      exact Option.some.inj hn
    obtain ⟨hlow, hhigh⟩ := hiff.mp heq
    rw [heq] at hne
    refine ⟨hlow, ?_⟩
    by_contra hlt
    exact hne (hone.mpr ⟨by omega, hhigh⟩)
  · rintro ⟨hlow, hhigh⟩ n
    have heq := hiff.mpr ⟨hlow, hhigh.trans (by decide)⟩
    have hne : pitDivisor frequencyHz ≠ 1 := by
      rw [heq]
      exact fun hd => absurd (hone.mp hd).1 (by omega)
    rw [pitInit_ticks, if_neg hne, heq]

/-- A rate of 1 Hz comes out as one of 88. -/
example : pitDivisor 1#32 = 13534 ∧ pitBaseFrequency / 13534 = 88 := by decide

end WaluOs
