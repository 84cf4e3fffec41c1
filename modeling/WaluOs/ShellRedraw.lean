import WaluOs.Prefixes
import WaluOs.ShellInput

/-!
# What the shell writes again

Behind 0x0C the shell writes the line again that is being typed, as the C string at
`shell_line`. Only a newline puts a NUL behind a line, so the string goes on with what earlier
and longer lines have left there.

`Terminated n bytes` says of the bytes that were read that they have left a NUL at the index
`n`: behind each line that was kept beyond it a line of just that length was completed. The
string is the pending line exactly when this holds for its length (`shellRun_redraws_iff`).
-/

namespace WaluOs

/-! ## The variables in a log -/

/-- Each entry has the variables that the bytes before it leave. -/
def Follows : Shell → List Entry → Prop
  | _, [] => True
  | sh, e :: log => e.1 = sh ∧ Follows (shellStep sh e.2).1 log

theorem Follows.append {log log' : List Entry} :
    ∀ {sh : Shell}, Follows sh log → Follows (Mealy.run shellStep sh (bytesOf log)).1 log' →
      Follows sh (log ++ log') := by
  induction log with
  | nil => exact fun _ h' => h'
  | cons e log ih =>
    intro sh h h'
    rw [bytesOf, List.map_cons, Mealy.run_cons] at h'
    exact ⟨h.1, ih h.2 h'⟩

/-- Two logs, one behind the other. -/
theorem Follows.trans {s s' : Sys} {log log' : List Entry} (h : Follows s.shell log)
    (hlogs : Logs s log s') (h' : Follows s'.shell log') : Follows s.shell (log ++ log') := by
  refine h.append ?_
  rw [hlogs.run]
  exact h'

/-- The entry behind a front part of the log. -/
theorem Follows.entry {l log : List Entry} {e : Entry} :
    ∀ {sh : Shell}, Follows sh log → l ++ [e] <+: log →
      e.1 = (Mealy.run shellStep sh (bytesOf l)).1 := by
  induction l generalizing log with
  | nil =>
    rintro sh h ⟨rest, rfl⟩
    exact h.1
  | cons d l ih =>
    rintro sh h ⟨rest, rfl⟩
    rw [bytesOf, List.map_cons, Mealy.run_cons]
    exact ih h.2 ⟨rest, rfl⟩

theorem follows_rule : LogRule fun s log s' => Logs s log s' ∧ Follows s.shell log where
  quiet hshell hcalls := ⟨logs_rule.quiet hshell hcalls, trivial⟩
  trans h h' := ⟨h.1.trans h'.1, h.2.trans h.1 h'.2⟩
  byte s c := ⟨shellByte_logs s c, rfl, trivial⟩

/-- A poll. -/
theorem pollLog_follows (s : Sys) : Follows s.shell (pollLog s) := by
  have hshell : (ttyPollInput s).shell = s.shell := (ttyPollLoop_frame kbdByteQueueSize s).1
  rw [← hshell]
  exact (follows_rule.poll s).2

/-- **A run**: the variables in its log. -/
theorem ShellRun.follows {polled : Sys → Prop} {start s : Sys} {log : List Entry}
    (h : ShellRun polled start log s) : Follows start.shell log := by
  induction h with
  | start => trivial
  | other h hshell hexecuted ih => exact ih
  | poll h hpolled ih => exact ih.trans h.logs (pollLog_follows _)

/-! ## The NUL behind a line -/

/-- How much the shell keeps of the line that is being typed. `shell_line` has 128 bytes and the
last one is for the NUL, so what goes beyond 127 is not stored. -/
def keptLength (bytes : List UInt8) : ℕ := min 127 (sinceBreak bytes).length

/-- Behind each ended line that was kept beyond the index `n`, a newline has come behind a line of
`n` bytes. Only a newline writes a NUL to `shell_line`, at the end of its own line; so this says
that a NUL stands at index `n`, whatever longer lines have left there before. -/
def Terminated (n : ℕ) (bytes : List UInt8) : Prop :=
  ∀ q c, q ++ [c] <+: bytes → InLine c = false → n < keptLength q →
    ∃ q', q ++ [c] <+: q' ∧ q' ++ [0x0A] <+: bytes ∧ keptLength q' = n

/-- Nothing has been read. -/
theorem terminated_nil (n : ℕ) : Terminated n [] :=
  fun _ _ hq => absurd hq Prefixes.not_concat_prefix_nil

/-- A byte of the line that is being typed. -/
theorem terminated_inLine {n : ℕ} {bytes : List UInt8} {c : UInt8} (hc : InLine c = true) :
    Terminated n (bytes ++ [c]) ↔ Terminated n bytes := by
  have hends : ∀ {q : List UInt8} {d : UInt8}, InLine d = false →
      (q ++ [d] <+: bytes ++ [c] ↔ q ++ [d] <+: bytes) := by
    intro q d hd
    refine Prefixes.concat_iff.trans (or_iff_right ?_)
    rintro ⟨-, rfl⟩
    rw [hc] at hd
    exact Bool.noConfusion hd
  constructor
  · intro h q d hq hd hn
    obtain ⟨q', hlater, hq', hlen⟩ := h q d ((hends hd).mpr hq) hd hn
    exact ⟨q', hlater, (hends rfl).mp hq', hlen⟩
  · intro h q d hq hd hn
    obtain ⟨q', hlater, hq', hlen⟩ := h q d ((hends hd).mp hq) hd hn
    exact ⟨q', hlater, (hends rfl).mpr hq', hlen⟩

/-- A line is dropped. -/
theorem terminated_interrupt {n : ℕ} {bytes : List UInt8} :
    Terminated n (bytes ++ [0x03]) ↔ keptLength bytes ≤ n ∧ Terminated n bytes := by
  have hends : ∀ {q : List UInt8}, q ++ [0x0A] <+: bytes ++ [0x03] ↔ q ++ [0x0A] <+: bytes := by
    intro q
    exact Prefixes.concat_iff.trans (or_iff_right fun h => absurd h.2 (by decide))
  constructor
  · intro h
    refine ⟨Nat.not_lt.mp fun hn => ?_, fun q d hq hd hn => ?_⟩
    · -- nothing has come behind the interrupt
      obtain ⟨q', hlater, hq', -⟩ := h bytes 0x03 (List.prefix_refl _) rfl hn
      have hlength := (hlater.trans ((List.prefix_append ..).trans (hends.mp hq'))).length_le
      rw [List.length_append, List.length_singleton] at hlength
      exact absurd hlength (Nat.not_succ_le_self _)
    · obtain ⟨q', hlater, hq', hlen⟩ := h q d (hq.trans (List.prefix_append ..)) hd hn
      exact ⟨q', hlater, hends.mp hq', hlen⟩
  · rintro ⟨hkept, h⟩ q d hq hd hn
    rcases Prefixes.concat_iff.mp hq with ⟨rfl, rfl⟩ | hq
    · exact absurd hn (Nat.not_lt.mpr hkept)
    · obtain ⟨q', hlater, hq', hlen⟩ := h q d hq hd hn
      exact ⟨q', hlater, hends.mpr hq', hlen⟩

/-- A line is completed. -/
theorem terminated_newline {n : ℕ} {bytes : List UInt8} :
    Terminated n (bytes ++ [0x0A]) ↔
      n = keptLength bytes ∨ keptLength bytes ≤ n ∧ Terminated n bytes := by
  constructor
  · intro h
    refine or_iff_not_imp_left.mpr fun hother => ?_
    have hbefore : ∀ {q : List UInt8}, q ++ [0x0A] <+: bytes ++ [0x0A] → keptLength q = n →
        q ++ [0x0A] <+: bytes := by
      intro q hq hlen
      refine (Prefixes.concat_iff.mp hq).resolve_left ?_
      rintro ⟨rfl, -⟩
      exact hother hlen.symm
    refine ⟨Nat.not_lt.mp fun hn => ?_, fun q d hq hd hn => ?_⟩
    · obtain ⟨q', hlater, hq', hlen⟩ := h bytes 0x0A (List.prefix_refl _) rfl hn
      have hlength := (hlater.trans ((List.prefix_append ..).trans (hbefore hq' hlen))).length_le
      rw [List.length_append, List.length_singleton] at hlength
      exact absurd hlength (Nat.not_succ_le_self _)
    · obtain ⟨q', hlater, hq', hlen⟩ := h q d (hq.trans (List.prefix_append ..)) hd hn
      exact ⟨q', hlater, hbefore hq' hlen, hlen⟩
  · rintro (rfl | ⟨hkept, h⟩) q d hq hd hn
    · rcases Prefixes.concat_iff.mp hq with ⟨rfl, -⟩ | hq
      · exact absurd hn (Nat.lt_irrefl _)
      · exact ⟨bytes, hq, List.prefix_refl _, rfl⟩
    · rcases Prefixes.concat_iff.mp hq with ⟨rfl, rfl⟩ | hq
      · exact absurd hn (Nat.not_lt.mpr hkept)
      · obtain ⟨q', hlater, hq', hlen⟩ := h q d hq hd hn
        exact ⟨q', hlater, hq'.trans (List.prefix_append ..), hlen⟩

/-! ## What the shell finds behind the pending line -/

/-- The shell holds the pending line, and `shell_line` has a NUL where the bytes have left one.
The second part speaks of the whole array, also of what stands behind the line: 0x0C prints the
array as a string, and it goes on until it finds a NUL. -/
structure Behind (sh : Shell) (bytes : List UInt8) : Prop where
  /-- the pending line -/
  holds : Holds sh bytes
  /-- the NULs; there is none in the line -/
  nul : ∀ n, sh.shellLine n = 0 ↔ sh.shellLen ≤ n ∧ Terminated n bytes

/-- The array is zero at first. -/
theorem behind_start {sh : Shell} (hempty : sh.shellLen = 0) (hzero : sh.shellLine = fun _ => 0) :
    Behind sh [] := by
  refine ⟨?_, fun n => ?_⟩
  · rw [Holds, Shell.line, hempty]
    rfl
  · rw [hzero, hempty]
    exact iff_of_true rfl ⟨Nat.zero_le n, terminated_nil n⟩

/-- **A byte.** A byte of the line may overwrite a NUL at its index, a newline writes one there,
and all other indices are as they were. -/
theorem Behind.step {sh : Shell} {bytes : List UInt8} (h : Behind sh bytes) (c : UInt8) :
    Behind (shellStep sh c).1 (bytes ++ [c]) := by
  refine ⟨(shellStep_holds h.holds c).1, fun n => ?_⟩
  have hlen : sh.shellLen = keptLength bytes := h.holds.shellLen
  have hnul := h.nul n
  rw [shellStep]
  split
  · rename_i hc
    subst hc
    rw [terminated_interrupt, ← hlen, ← hnul]
    exact (and_iff_right (Nat.zero_le n)).symm
  split
  · rename_i hc
    subst hc
    rw [terminated_inLine rfl]
    exact hnul
  split
  · rename_i hc
    subst hc
    rw [terminated_newline, ← hlen, ← hnul]
    dsimp only
    rcases eq_or_ne n sh.shellLen with rfl | hn
    · exact iff_of_true (Function.update_self ..) ⟨Nat.zero_le _, .inl rfl⟩
    · rw [Function.update_of_ne hn, or_iff_right hn]
      exact (and_iff_right (Nat.zero_le n)).symm
  rename_i hinterrupt _ hnewline
  have hline : InLine c = true := decide_eq_true ⟨hnewline, hinterrupt⟩
  rw [terminated_inLine hline]
  split
  · exact hnul
  split
  · exact hnul
  rename_i hdata
  split
  · -- the byte goes where a NUL may have been
    dsimp only
    rcases eq_or_ne n sh.shellLen with rfl | hn
    · refine iff_of_false ?_ fun hbehind => Nat.not_succ_le_self _ hbehind.1
      rw [Function.update_self]
      exact (dataByte_iff.mpr hdata).ne (by decide)
    · rw [Function.update_of_ne hn, hnul, Nat.succ_le_iff, Nat.lt_iff_le_and_ne]
      exact and_congr_left fun _ => (and_iff_left hn.symm).symm
  · exact hnul

/-- A stream of bytes. -/
theorem Behind.run (rest : List UInt8) :
    ∀ {sh : Shell} {bytes : List UInt8}, Behind sh bytes →
      Behind (Mealy.run shellStep sh rest).1 (bytes ++ rest) := by
  induction rest with
  | nil =>
    intro sh bytes h
    rw [Mealy.run_nil, List.append_nil]
    exact h
  | cons c rest ih =>
    intro sh bytes h
    rw [Mealy.run_cons, List.append_cons]
    exact ih (h.step c)

/-! ## The line that is written again -/

/-- The C string at `shell_line` is the pending line when a NUL stands behind it. -/
theorem cString_eq_line_iff {sh : Shell} (hlen : sh.shellLen < shellLineMax)
    (hnz : ∀ b ∈ sh.line, b ≠ 0) :
    cString sh.shellLine = sh.line ↔ sh.shellLine sh.shellLen = 0 := by
  constructor
  · intro heq
    by_contra hdata
    -- the string goes on behind the line
    obtain ⟨k, hk⟩ : ∃ k, shellLineMax = sh.shellLen + (k + 1) := Nat.exists_eq_add_of_lt hlen
    have hsplit : (List.range shellLineMax).map sh.shellLine =
        sh.line ++ sh.shellLine sh.shellLen ::
          (List.range k).map fun i => sh.shellLine (sh.shellLen + (i + 1)) := by
      rw [hk, List.range_add, List.map_append, List.range_succ_eq_map, Shell.line]
      simp
    obtain ⟨rest, hlonger⟩ : ∃ rest,
        cString sh.shellLine = sh.line ++ sh.shellLine sh.shellLen :: rest := by
      rw [cString, hsplit, List.takeWhile_append_of_pos fun b hb => bne_iff_ne.mpr (hnz b hb),
        List.takeWhile_cons, if_pos (bne_iff_ne.mpr hdata)]
      exact ⟨_, rfl⟩
    rw [heq] at hlonger
    exact List.cons_ne_nil _ _ (List.self_eq_append_right.mp hlonger)
  · intro hnul
    have hupdate : Function.update sh.shellLine sh.shellLen 0 = sh.shellLine := by
      rw [← hnul]
      exact Function.update_eq_self ..
    have hcut := cString_terminated sh hlen hnz
    rwa [hupdate] at hcut

/-- At 0x0C the shell clears the screen, and writes the prompt and the line that is being typed.
That is what the key is for; the code prints the string that begins with the line, and the two
differ where the line has no NUL behind it. -/
def RedrawsLine (e : Entry) : Prop :=
  e.2 = 0x0C → 0 < e.1.shellLen → (shellStep e.1 e.2).2 = [.clear, .prompt, .redraw e.1.line]

/-- **One 0x0C.** -/
theorem Behind.redraws_iff {sh : Shell} {bytes : List UInt8} (h : Behind sh bytes) :
    RedrawsLine (sh, 0x0C) ↔ sinceBreak bytes ≠ [] → Terminated (keptLength bytes) bytes := by
  have hlen : sh.shellLen = keptLength bytes := h.holds.shellLen
  have hpending : 0 < sh.shellLen ↔ sinceBreak bytes ≠ [] := by
    rw [hlen, keptLength, lt_min_iff, List.length_pos_iff]
    exact and_iff_right (by decide)
  rw [← hpending]
  have hroom : sh.shellLen < shellLineMax := by
    rw [hlen]
    exact Nat.lt_succ_of_le (Nat.min_le_left _ _)
  have hline : ∀ b ∈ sh.line, b ≠ 0 := by
    rw [h.holds]
    exact ne_zero_of_mem_sinceBreak
  refine (forall_prop_of_true rfl).trans (forall_congr' fun hpos => ?_)
  have hcalls : (shellStep sh 0x0C).2 = [.clear, .prompt, .redraw (cString sh.shellLine)] := by
    rw [shellStep, if_neg (by decide), if_pos rfl, if_pos hpos]
    rfl
  rw [hcalls, ← hlen, ← and_iff_right (le_refl sh.shellLen) (b := Terminated _ _), ← h.nul,
    ← cString_eq_line_iff hroom hline]
  simp

/-- **The pending line is written again as it is** in a run, exactly when at each 0x0C a NUL has
been left behind it. What is written is what the log says: by `pollLog_traces` a poll calls
`console_write` with the bytes of the redraw entry, behind the prompt. -/
theorem shellRun_redraws_iff {polled : Sys → Prop} {boot s : Sys} {log : List Entry}
    (h : ShellRun polled (shellInit boot) log s) (hzero : boot.shell.shellLine = fun _ => 0) :
    (∀ e ∈ log, RedrawsLine e) ↔
      ∀ p, p ++ [0x0C] <+: bytesOf log → sinceBreak p ≠ [] → Terminated (keptLength p) p := by
  have hstart : Behind (shellInit boot).shell [] := behind_start rfl hzero
  have hentry : ∀ {l : List Entry} {e : Entry}, l ++ [e] <+: log → Behind e.1 (bytesOf l) := by
    intro l e hl
    rw [h.follows.entry hl]
    exact hstart.run (bytesOf l)
  constructor
  · intro hredraws p hp
    obtain ⟨l', hl', heq⟩ := List.prefix_map_iff.mp hp
    obtain ⟨l, e, rfl, rfl, he⟩ : ∃ l e, l' = l ++ [e] ∧ p = bytesOf l ∧ e.2 = 0x0C := by
      obtain ⟨l, last, rfl, hl, hlast⟩ := List.append_eq_map_iff.mp heq
      obtain ⟨e, rfl, he⟩ := List.map_eq_singleton_iff.mp hlast
      exact ⟨l, e, rfl, hl.symm, he⟩
    obtain ⟨sh, c⟩ := e
    obtain rfl : c = 0x0C := he
    exact (hentry hl').redraws_iff.mp
      (hredraws _ (hl'.subset (List.mem_append_right _ (List.mem_singleton_self _))))
  · rintro hleft ⟨sh, c⟩ he hc hpos
    obtain rfl : c = 0x0C := hc
    obtain ⟨l, rest, rfl⟩ := List.append_of_mem he
    have hl : l ++ [(sh, 0x0C)] <+: l ++ (sh, 0x0C) :: rest := ⟨rest, List.append_cons .. |>.symm⟩
    have hbytes : bytesOf l ++ [0x0C] <+: bytesOf (l ++ (sh, 0x0C) :: rest) := by
      have := hl.map Prod.snd
      rwa [List.map_append] at this
    exact (hentry hl).redraws_iff.mpr (hleft _ hbytes) rfl hpos

/-- Two lines of one length: the first is executed, the second sent without a newline. -/
theorem twoWords_redraws :
    (∀ e ∈ pollLog (withKeys (kernelInput sysZero) (text "ls\nhi" ++ [0x04, 0x0C])),
        RedrawsLine e) ↔
      ∀ p, p ++ [0x0C] <+:
          bytesOf (pollLog (withKeys (kernelInput sysZero) (text "ls\nhi" ++ [0x04, 0x0C]))) →
        sinceBreak p ≠ [] → Terminated (keptLength p) p :=
  shellRun_redraws_iff (booted_run (text "ls\nhi" ++ [0x04, 0x0C]) (by decide +kernel)) rfl

/-- A line, the front part of a shorter one, and 0x0C. The 0x04 hands `ab` to the shell without a
newline, and behind `ab` the array still holds `llo`. -/
def helloThenRedraw : List UInt8 := text "hello\nab" ++ [0x04, 0x0C]

/-- The end of the longer line is written too. -/
theorem helloThenRedraw_stale :
    ShellRun ReadsPty (kernelInput sysZero)
        (pollLog (withKeys (kernelInput sysZero) helloThenRedraw))
        (typeAndPoll (kernelInput sysZero) helloThenRedraw) ∧
      (∃ e ∈ pollLog (withKeys (kernelInput sysZero) helloThenRedraw), e.2 = 0x0C ∧
        e.1.line = text "ab" ∧
          (shellStep e.1 e.2).2 = [.clear, .prompt, .redraw (text "abllo")]) ∧
      ¬∀ e ∈ pollLog (withKeys (kernelInput sysZero) helloThenRedraw), RedrawsLine e := by
  have hstale : ∃ e ∈ pollLog (withKeys (kernelInput sysZero) helloThenRedraw), e.2 = 0x0C ∧
      e.1.line = text "ab" ∧ e.1.shellLen = 2 ∧
        (shellStep e.1 e.2).2 = [.clear, .prompt, .redraw (text "abllo")] := by decide +kernel
  obtain ⟨e, he, hc, hline, hlen, hcalls⟩ := hstale
  refine ⟨booted_run helloThenRedraw (by decide +kernel), ⟨e, he, hc, hline, hcalls⟩,
    fun hredraws => ?_⟩
  have hright := hredraws e he hc (hlen ▸ by decide)
  rw [hcalls, hline] at hright
  exact absurd hright (by decide)

end WaluOs
