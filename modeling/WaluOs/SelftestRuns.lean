import Mathlib.Data.Finset.Card
import Mathlib.Logic.Function.Iterate
import WaluOs.SessionRuns

/-!
# The self-test takes a PTY

`cmd_selftest` takes a PTY slot for its test, and there is no call that gives one back. So no
execution leaves the input side as it was, and when the slots are used up, the self-test
cannot run any more.

The number of free slots goes down with each execution for as long as there are any, and never up.
-/

namespace WaluOs

/-- The PTY slots that are free. There are eight, and none is ever given back. -/
def freeSlots (p : Ptys) : ℕ :=
  ((Finset.range ptyMax).filter fun i : ℕ => ptyIsValid p i = false).card

/-- The self-test passes and leaves the input side as it was: the free PTY slots, the pending line
and the data that wait for the shell. It is what one would want of a command that only tests. -/
structure SelftestNeutral (s : Sys) : Prop where
  pass : [say "selftest: ", say "PASS\n"] <:+ (cmdSelftest s).calls
  slots : freeSlots (cmdSelftest s).ptys = freeSlots s.ptys
  line : (cmdSelftest s).tty.ttyLine = s.tty.ttyLine
  unread : (cmdSelftest s).readerQueue = s.readerQueue

/-- Where PTYs are only taken, the free slots get no more. -/
theorem freeSlots_le {p q : Ptys} (h : ∀ i, ptyIsValid p i = true → ptyIsValid q i = true) :
    freeSlots q ≤ freeSlots p := by
  refine Finset.card_le_card fun i hi => ?_
  obtain ⟨hi, hq⟩ := Finset.mem_filter.mp hi
  refine Finset.mem_filter.mpr ⟨hi, Bool.eq_false_iff.mpr fun hp => ?_⟩
  rw [h i hp] at hq
  exact absurd hq (by decide)

/-- A slot that is taken is one slot less. -/
theorem freeSlots_lt {p q : Ptys} (h : ∀ i, ptyIsValid p i = true → ptyIsValid q i = true)
    {k : ℕ} (hk : k < ptyMax) (hp : ptyIsValid p k = false) (hq : ptyIsValid q k = true) :
    freeSlots q < freeSlots p := by
  refine Finset.card_lt_card (Finset.ssubset_iff_subset_ne.mpr ⟨fun i hi => ?_, fun heq => ?_⟩)
  · obtain ⟨hi, hfree⟩ := Finset.mem_filter.mp hi
    refine Finset.mem_filter.mpr ⟨hi, Bool.eq_false_iff.mpr fun hvalid => ?_⟩
    exact Bool.false_ne_true (hfree.symm.trans (h i hvalid))
  · have hmem : k ∈ (Finset.range ptyMax).filter fun i : ℕ => ptyIsValid q i = false := by
      rw [heq]
      exact Finset.mem_filter.mpr ⟨Finset.mem_range.mpr hk, hp⟩
    exact Bool.false_ne_true ((Finset.mem_filter.mp hmem).2.symm.trans hq)

/-- `pty_alloc` fails when no slot is free, and takes one otherwise. -/
theorem ptyAlloc_freeSlots (p : Ptys) :
    ((ptyAlloc p).2 < 0 ∧ freeSlots p = 0) ∨
      (¬(ptyAlloc p).2 < 0 ∧ freeSlots (ptyAlloc p).1 < freeSlots p) := by
  rcases ptyAlloc_cases p with ⟨h, hall⟩ | ⟨k, hk, hfree, h⟩
  · refine Or.inl ⟨by rw [h]; exact Int.negSucc_lt_zero 0, ?_⟩
    refine Finset.card_eq_zero.mpr (Finset.filter_eq_empty_iff.mpr fun i hi hnone => ?_)
    have hi' := Finset.mem_range.mp hi
    exact Bool.false_ne_true (hnone.symm.trans (ptyIsValid_iff.mpr ⟨i, hi', rfl, hall i hi'⟩))
  · refine Or.inr ⟨by rw [h]; exact not_lt.mpr (Int.natCast_nonneg k), ?_⟩
    refine freeSlots_lt (fun i hi => ptyIsValid_ptyAlloc hi) hk ?_ ?_
    · refine Bool.eq_false_iff.mpr fun hvalid => ?_
      obtain ⟨i, -, hik, halloc⟩ := ptyIsValid_iff.mp hvalid
      obtain rfl : k = i := by exact_mod_cast hik
      exact Bool.false_ne_true (hfree.symm.trans halloc)
    · rw [h]
      refine ptyIsValid_iff.mpr ⟨k, hk, rfl, ?_⟩
      rw [Ptys.gPtys_setSlot_self]

/-- Without a free slot an execution says so and does nothing else. -/
theorem cmdSelftest_full {s : Sys} (h : freeSlots s.ptys = 0) :
    cmdSelftest s = s.emit [say "selftest: pty alloc failed\n"] := by
  rcases ptyAlloc_freeSlots s.ptys with ⟨hid, -⟩ | ⟨-, hlt⟩
  · rw [cmdSelftest, if_pos hid, ptyAlloc_full hid]
  · omega

theorem ttyTestInjectBytes_keepsTables (s : Sys) (bytes : List UInt8) :
    KeepsTables s (ttyTestInjectBytes s bytes) :=
  List.foldlRecOn (motive := KeepsTables s) bytes ttyReceive (.of_eq rfl rfl)
    fun u h b _ => h.trans (ttyReceive_keepsTables u b)

/-- With one, it takes it. -/
theorem cmdSelftest_takes {s : Sys} (h : freeSlots s.ptys ≠ 0) :
    freeSlots (cmdSelftest s).ptys < freeSlots s.ptys := by
  rcases ptyAlloc_freeSlots s.ptys with ⟨-, hnone⟩ | ⟨hid, hlt⟩
  · exact absurd hnone h
  · obtain ⟨cs, -, heq⟩ := cmdSelftest_eq s
    rw [heq, if_neg hid]
    -- what follows the allocation takes nothing back
    have htest : ∀ i, ptyIsValid (ptyAlloc s.ptys).1 i = true →
        ptyIsValid (selftestPtys s.ptys) i = true := by
      intro i hi
      rw [selftestPtys]
      refine (ptyIsValid_ptyWrite .m2s _ (-1) i _).trans ((ptyIsValid_drainPty ..).trans ?_)
      exact (ptyIsValid_ptyWrite .m2s _ _ i _).trans hi
    have hline := ttyTestInjectBytes_keepsTables { s with ptys := selftestPtys s.ptys }
      (List.replicate 899 0x78 ++ [0x0A])
    have hkeeps := (hline.trans (drainActivePty_keepsTables _)).emit cs
    exact (freeSlots_le fun i hi => hkeeps.valid i (htest i hi)).trans_lt hlt

theorem selftest_not_neutral (s : Sys) : ¬SelftestNeutral s := by
  intro h
  by_cases hfull : freeSlots s.ptys = 0
  · -- the last thing it printed is the failure
    obtain ⟨calls, hcalls⟩ := h.pass
    rw [cmdSelftest_full hfull, Sys.emit] at hcalls
    have hlast : some (say "PASS\n") = some (say "selftest: pty alloc failed\n") := by
      have := congrArg List.getLast? hcalls
      rwa [List.getLast?_append, List.getLast?_append] at this
    exact absurd hlast (by decide)
  · exact (cmdSelftest_takes hfull).ne h.slots

/-- Each execution takes a slot while there is one. -/
theorem selftests_freeSlots (s : Sys) (n : ℕ) :
    freeSlots (cmdSelftest^[n] s).ptys ≤ freeSlots s.ptys - n := by
  induction n with
  | zero => exact Nat.le_refl _
  | succ n ih =>
    rw [Function.iterate_succ_apply']
    by_cases hfull : freeSlots (cmdSelftest^[n] s).ptys = 0
    · rw [cmdSelftest_full hfull]
      exact (Nat.le_of_eq hfull).trans (Nat.zero_le _)
    · have := cmdSelftest_takes hfull
      omega

/-- When the slots are used up, every execution fails. -/
theorem selftests_fail (s : Sys) {n : ℕ} (h : freeSlots s.ptys ≤ n) :
    cmdSelftest^[n + 1] s = (cmdSelftest^[n] s).emit [say "selftest: pty alloc failed\n"] := by
  have hnone := selftests_freeSlots s n
  rw [Function.iterate_succ_apply']
  exact cmdSelftest_full (by omega)

/-- **The self-test is neutral in no state**, and from the first execution without a free slot on
it fails. An execution that passes keeps the slot of the PTY that it has made. -/
theorem selftest_never_neutral (s : Sys) :
    ¬SelftestNeutral s ∧ ∀ n, freeSlots s.ptys ≤ n →
      cmdSelftest^[n + 1] s = (cmdSelftest^[n] s).emit [say "selftest: pty alloc failed\n"] :=
  ⟨selftest_not_neutral s, fun _ h => selftests_fail s h⟩

/-- After booting, one execution is not neutral, and the eighth fails. -/
theorem kernelInput_selftests :
    freeSlots (kernelInput sysZero).ptys = 7 ∧ ¬SelftestNeutral (kernelInput sysZero) ∧
      cmdSelftest^[8] (kernelInput sysZero) =
        (cmdSelftest^[7] (kernelInput sysZero)).emit [say "selftest: pty alloc failed\n"] := by
  have hslots : freeSlots (kernelInput sysZero).ptys = 7 := by decide +kernel
  exact ⟨hslots, selftest_not_neutral _, selftests_fail (kernelInput sysZero) hslots.le⟩

end WaluOs
