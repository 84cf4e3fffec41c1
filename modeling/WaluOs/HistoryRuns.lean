import WaluOs.MainLoop
import WaluOs.RustHistory

/-!
# The shell and its history

The history is kept in Rust and filled from C: `execute_command` pushes what is left of a line
without the blanks in front of it, if anything is left. Nothing else pushes. So over every run of
the main loop, also one that drops bytes or runs `selftest`, the slots hold the last sixteen
commands that were executed, and the number that `meminfo` prints is how many there were
(`mainRun_history`).

Each act of a run pushes what it executes, and nothing else (`Faithful`). The run is an induction
with that step, and what the slots hold then is a statement about the Rust side alone.
-/

namespace WaluOs

/-! ## What a trace says of the history -/

/-- The lines a trace has pushed to the history, oldest first. -/
def pushedLines (calls : List Call) : List (List UInt8) :=
  calls.filterMap fun
    | .rustHistoryPush line => some line
    | _ => none

/-- What the history keeps of commands. Blanks in front are skipped before the line is pushed, and
a line of nothing else is no command. -/
def historyLines (lines : List (List UInt8)) : List (List UInt8) :=
  (lines.map fun line => line.dropWhile (· == 0x20)).filter (· ≠ [])

theorem pushedLines_append (xs ys : List Call) :
    pushedLines (xs ++ ys) = pushedLines xs ++ pushedLines ys := List.filterMap_append

theorem historyLines_append (xs ys : List (List UInt8)) :
    historyLines (xs ++ ys) = historyLines xs ++ historyLines ys := by
  rw [historyLines, List.map_append, List.filter_append]
  rfl

theorem pushedLines_output {cs : List Call} (h : cs.all Call.IsOutput = true) :
    pushedLines cs = [] := by
  refine List.filterMap_eq_nil_iff.mpr fun call hcall => ?_
  have houtput := List.all_eq_true.mp h call hcall
  cases call <;> first | rfl | exact absurd houtput Bool.false_ne_true

/-- Between `s` and `s'` every command was pushed that had to be, and counted, and nothing else. -/
def Faithful (s s' : Sys) : Prop :=
  ∃ cs, s'.calls = s.calls ++ cs ∧ pushedLines cs = historyLines (executed cs) ∧
    s'.rustHistoryCount = s.rustHistoryCount + UInt64.ofNat (pushedLines cs).length

namespace Faithful

theorem of_eq {s s' : Sys} (hcalls : s'.calls = s.calls)
    (hcount : s'.rustHistoryCount = s.rustHistoryCount) : Faithful s s' :=
  ⟨[], hcalls.trans (List.append_nil _).symm, rfl, hcount.trans (UInt64.add_zero _).symm⟩

theorem refl (s : Sys) : Faithful s s := of_eq rfl rfl

theorem trans {s₁ s₂ s₃ : Sys} (h : Faithful s₁ s₂) (h' : Faithful s₂ s₃) : Faithful s₁ s₃ := by
  obtain ⟨xs, hcalls, hpushed, hcount⟩ := h
  obtain ⟨ys, hcalls', hpushed', hcount'⟩ := h'
  refine ⟨xs ++ ys, by rw [hcalls', hcalls, List.append_assoc], ?_, ?_⟩
  · rw [pushedLines_append, executed_append, historyLines_append, hpushed, hpushed']
  · rw [hcount', hcount, pushedLines_append, List.length_append, UInt64.ofNat_add,
      UInt64.add_assoc]

/-- Output. -/
theorem emit {s s' : Sys} (h : Faithful s s') {cs : List Call}
    (hcs : cs.all Call.IsOutput = true) : Faithful s (s'.emit cs) := by
  refine h.trans ⟨cs, rfl, ?_, ?_⟩
  · rw [pushedLines_output hcs, executed_output hcs]
    rfl
  · rw [pushedLines_output hcs]
    exact (UInt64.add_zero _).symm

theorem ite {s a b : Sys} {p : Prop} [Decidable p] (ha : Faithful s a)
    (hb : ¬p → Faithful s b) : Faithful s (if p then a else b) := by
  split
  · exact ha
  · exact hb ‹_›

end Faithful

/-- The receive path only echoes. -/
theorem ttyReceive_faithful (s : Sys) (byte : UInt8) : Faithful s (ttyReceive s byte) := by
  have hframe := ttyReceive_receiveFrame s byte
  obtain ⟨cs, hcs, hcalls⟩ := hframe.output
  refine ⟨cs, hcalls, ?_, ?_⟩
  · rw [pushedLines_output hcs, executed_output hcs]
    rfl
  · rw [pushedLines_output hcs, hframe.rustHistoryCount]
    exact (UInt64.add_zero _).symm

/-! ## Commands -/

theorem bitNames_output (bits : UInt8) (names : List (UInt8 × String)) :
    (bitNames bits names).all Call.IsOutput = true := by
  rw [bitNames]
  split
  · rfl
  · refine List.all_eq_true.mpr fun call hcall => ?_
    obtain ⟨p, _, hp⟩ := List.mem_filterMap.mp hcall
    split at hp
    · rw [← Option.some.inj hp]
      rfl
    · exact absurd hp.symm (Option.some_ne_none call)

theorem cmdKbdinfo_faithful (s : Sys) : Faithful s (cmdKbdinfo s) := by
  refine (Faithful.refl s).emit ?_
  simp only [List.all_append, bitNames_output]
  rfl

theorem cmdSelftest_faithful (s : Sys) : Faithful s (cmdSelftest s) := by
  have hinject (buf : List UInt8) (s : Sys) : Faithful s (ttyTestInjectBytes s buf) :=
    List.foldlRecOn (motive := Faithful s) buf ttyReceive (.refl s)
      fun _ h b _ => h.trans (ttyReceive_faithful _ b)
  have hdrain (s : Sys) : Faithful s (drainActivePty s) := by
    rw [drainActivePty]
    split <;> exact .of_eq rfl rfl
  rw [cmdSelftest]
  by_cases hid : (ptyAlloc s.ptys).2 < 0
  · rw [if_pos hid]
    exact Faithful.emit (.of_eq rfl rfl) rfl
  · rw [if_neg hid]
    have hptys : Faithful s { s with ptys := selftestPtys s.ptys } := .of_eq rfl rfl
    exact Faithful.emit ((hptys.trans (hinject _ _)).trans (hdrain _)) rfl

/-- A command, with the note that it is executed. It is pushed once, without the blanks in front,
unless nothing else is in it. -/
theorem executeCommand_faithful (s : Sys) (line : List UInt8) :
    Faithful s (executeCommand (s.emit [.executeCommand line]) line) := by
  rw [executeCommand]
  by_cases hline : line.dropWhile (· == 0x20) = []
  · rw [if_pos hline]
    refine ⟨[.executeCommand line], rfl, ?_, (UInt64.add_zero _).symm⟩
    show [] = [line.dropWhile (· == 0x20)].filter (· ≠ [])
    rw [hline]
    rfl
  · have hpush : Faithful s ({ s.emit [.executeCommand line] with
        rustHistoryCount := s.rustHistoryCount + 1 }.emit
          [.rustHistoryPush (line.dropWhile (· == 0x20))]) := by
      refine ⟨[.executeCommand line, .rustHistoryPush (line.dropWhile (· == 0x20))],
        List.append_assoc .., ?_, rfl⟩
      show [line.dropWhile (· == 0x20)] = [line.dropWhile (· == 0x20)].filter (· ≠ [])
      refine (List.filter_eq_self.mpr fun kept hkept => ?_).symm
      rw [List.mem_singleton.mp hkept]
      exact decide_eq_true hline
    rw [if_neg hline]
    -- help, clear, meminfo, kbdinfo
    refine .ite (hpush.emit rfl) fun _ => ?_
    refine .ite (hpush.emit rfl) fun _ => ?_
    refine .ite (hpush.emit rfl) fun _ => ?_
    refine .ite (hpush.trans (cmdKbdinfo_faithful _)) fun _ => ?_
    -- ansi, ttyinfo, health, session, selftest
    refine .ite (hpush.emit rfl) fun _ => ?_
    refine .ite (hpush.emit rfl) fun _ => ?_
    refine .ite (hpush.emit rfl) fun _ => ?_
    refine .ite (hpush.emit rfl) fun _ => ?_
    refine .ite (hpush.trans (cmdSelftest_faithful _)) fun _ => ?_
    -- echo with and without text, and what is no command
    refine .ite (hpush.emit rfl) fun _ => ?_
    exact .ite (hpush.emit rfl) fun _ => hpush.emit rfl

theorem shellByte_faithful (s : Sys) (c : UInt8) : Faithful s (shellByte s c) := by
  rw [shellByte]
  dsimp only
  split_ifs
  · exact Faithful.emit (.of_eq rfl rfl) rfl
  · exact Faithful.emit (Faithful.emit ((Faithful.refl s).emit rfl) rfl) rfl
  · exact Faithful.emit ((Faithful.refl s).emit rfl) rfl
  · refine Faithful.emit (Faithful.trans ?_ (.of_eq rfl rfl)) rfl
    exact executeCommand_faithful { s with
      shell.shellLine := Function.update s.shell.shellLine s.shell.shellLen 0 } _
  · exact .refl s
  · exact .refl s
  · exact .of_eq rfl rfl
  · exact .refl s

/-! ## Runs -/

/-- An act of a run. Keys, ticks and what the TTY does push nothing, so what is left is the byte
that the shell handles. -/
theorem mainAct_faithful (m : Loop) (act : LoopAct) : Faithful m.sys (mainAct m act).sys := by
  cases act with
  | key scancode => exact .of_eq rfl rfl
  | tick => exact .of_eq rfl rfl
  | run =>
    rw [mainAct, mainStep]
    cases hphase : m.phase with
    | hlt => exact .refl m.sys
    | poll =>
      dsimp only
      split
      · exact .refl m.sys
      · exact Faithful.trans (.of_eq rfl rfl) (ttyReceive_faithful _ _)
    | pty ptyId => exact .of_eq rfl rfl
    | buf ptyId rest =>
      cases rest with
      | nil => exact .refl m.sys
      | cons c rest => exact shellByte_faithful m.sys c
    | ring =>
      have hpop : Faithful m.sys (ttyPopChar m.sys).1 := by
        rw [ttyPopChar]
        dsimp only
        split <;> exact .of_eq rfl rfl
      dsimp only
      split
      · rename_i s heq
        rwa [heq] at hpop
      · rename_i s c heq
        rw [heq] at hpop
        exact hpop.trans (shellByte_faithful s c)

theorem mainRun_faithful (acts : List LoopAct) (m : Loop) :
    Faithful m.sys (mainRun m acts).sys :=
  List.foldlRecOn (motive := fun m' => Faithful m.sys m'.sys) acts mainAct (.refl m.sys)
    fun m' h act _ => h.trans (mainAct_faithful m' act)

/-- The calls since `kernel_main` entered the loop. What was called before is the same in every
run. -/
def callsSince (s : Sys) (m : Loop) : List Call := m.sys.calls.drop (kernelInput s).calls.length

/-- What is pushed is not empty. -/
theorem carried_historyLines (lines : List (List UInt8)) :
    carried ((historyLines lines).map some) = historyLines lines := by
  have hall : ∀ line ∈ historyLines lines, line.length ≠ 0 := fun line hline =>
    mt List.eq_nil_of_length_eq_zero (of_decide_eq_true (List.mem_filter.mp hline).2)
  rw [carried, List.filterMap_map]
  refine (List.filterMap_congr fun line hline => ?_).trans List.filterMap_some
  show (some line).filter (fun line => decide (line.length ≠ 0)) = some line
  rw [Option.filter_some, decide_eq_true (hall line hline), if_pos rfl]

theorem kernelInput_rustHistoryCount (s : Sys) :
    (kernelInput s).rustHistoryCount = s.rustHistoryCount := by
  rw [kernelInput]
  dsimp only
  split_ifs <;> rfl

/-- **The history holds the last sixteen commands** that the shell has executed, without the
blanks in front and cut to 63 bytes, after every run of the main loop; blank lines do not count,
and the counter that the shell prints is the one that Rust keeps. -/
theorem mainRun_history (s : Sys) (acts : List LoopAct) :
    let m := mainRun (mainBoot s) acts
    let lines := historyLines (executed (callsSince s m))
    ∃ r, rustRun ((pushedLines (callsSince s m)).map some) = some r ∧
      m.sys.rustHistoryCount = s.rustHistoryCount + rustHistoryCount r ∧
      r.history.count = min lines.length historySlots ∧
      ∀ i line, lines[i]? = some line → lines.length ≤ i + historySlots →
        (r.history.entries[i % historySlots]?).map Vector.toList =
            some (line.take (keptLen line) ++ List.replicate (slotLen - keptLen line) 0) ∧
          r.history.lens[i % historySlots]? = some (keptLen line) := by
  intro m lines
  obtain ⟨cs, hcalls, hpushed, hcount⟩ := mainRun_faithful acts (mainBoot s)
  have hsince : callsSince s m = cs := by
    rw [callsSince]
    show m.sys.calls.drop (mainBoot s).sys.calls.length = cs
    rw [hcalls, List.drop_left]
  obtain ⟨r, hrun, h⟩ := records_boot.run ((pushedLines cs).map some)
  have hlines : carried ((pushedLines cs).map some) = lines := by
    show _ = historyLines (executed (callsSince s m))
    rw [hsince, hpushed, carried_historyLines]
  rw [List.nil_append, hlines] at h
  rw [hsince]
  refine ⟨r, hrun, ?_, h.count, fun i line hline hlast => ⟨?_, ?_⟩⟩
  · have hpush : pushedLines cs = lines := by
      show _ = historyLines (executed (callsSince s m))
      rw [hsince, hpushed]
    rw [rustHistoryCount, h.counted, ← hpush, hcount]
    exact congrArg (· + _) (kernelInput_rustHistoryCount s)
  · refine h.entries i _ ?_ ?_
    · rw [List.getElem?_map, hline]
      rfl
    · rwa [List.length_map]
  · refine h.lens i _ ?_ ?_
    · rw [List.getElem?_map, hline]
      rfl
    · rwa [List.length_map]

end WaluOs
