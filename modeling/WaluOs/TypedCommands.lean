import WaluOs.KeyboardTyping
import WaluOs.Utf8Editing

/-!
# The commands that can be typed

Between the keyboard and `execute_command` there are two line buffers, an escape filter, an
editor and two queues. What comes out at the end can still be said in one line: a sequence of
commands is executed in some run of the main loop that keeps pace with the keys exactly if each
of them has at most 127 bytes, all of them tabs or printable ASCII (`mainRun_commands_iff`).

The keys come one at a time. After each of them the loop runs until it halts (`Waits`), and then
it has taken the bytes of the key, so that no run of this kind falls behind.
-/

namespace WaluOs

/-! ## Pauses -/

/-- While bytes that came in are not counted as taken, the loop takes them. -/
def Loop.Catches (m : Loop) : Prop := m.phase = .poll ∨ m.fresh = 0

theorem mainStep_catches {m : Loop} (h : m.Catches) : (mainStep m).Catches := by
  rcases h with h | h
  · obtain ⟨s, phase, fresh⟩ := m
    obtain rfl : phase = .poll := h
    by_cases hempty : s.kbd.kbdByteQueue.ring.tail = s.kbd.kbdByteQueue.ring.head
    · rw [mainStep_poll_none fresh (if_pos hempty)]
      exact Or.inr rfl
    · rw [mainStep_poll_some fresh (if_neg hempty)]
      exact Or.inl rfl
  · exact Or.inr (Nat.eq_zero_of_le_zero (h ▸ mainStep_fresh m))

theorem mainAct_tick_catches {m : Loop} (h : m.Catches) : (mainAct m .tick).Catches := by
  rcases h with h | h
  · exact Or.inl ((congrArg Phase.wake h).trans rfl)
  · exact Or.inr h

/-- Without keys nothing comes in. -/
theorem mainRun_pause (acts : List LoopAct) :
    ∀ {m : Loop}, keysOf acts = [] → m.Catches →
      (mainRun m acts).Catches ∧ (mainRun m acts).fresh ≤ m.fresh := by
  induction acts with
  | nil => exact fun _ h => ⟨h, le_rfl⟩
  | cons act acts ih =>
    intro m hkeys h
    cases act with
    | key scancode => cases hkeys
    | tick => exact ih hkeys (mainAct_tick_catches h)
    | run =>
      obtain ⟨hcatches, hle⟩ := ih hkeys (mainStep_catches h)
      exact ⟨hcatches, hle.trans (mainStep_fresh m)⟩

theorem paced_pause {m : Loop} {acts : List LoopAct} (hkeys : keysOf acts = [])
    (hcatches : m.Catches) (hfresh : m.fresh ≤ 1023) : Paced m acts := by
  intro before hbefore
  have hnone : keysOf before = [] :=
    List.prefix_nil.mp (hkeys ▸ hbefore.filterMap _)
  exact (mainRun_pause before hnone hcatches).2.trans hfresh

theorem paced_iff {m : Loop} {acts : List LoopAct} :
    Paced m acts ↔ FoldAlong mainAct (fun m => m.fresh ≤ 1023) m acts := Iff.rfl

/-! ## One key at a time -/

/-- The loop waits for a key, and has taken all there were. It is the state that each line typed
finds, and comes back to after it. -/
structure Waits (boot : Sys) (scancodes : List UInt8) (m : Loop) : Prop where
  /-- what it has done -/
  flows : FlowsTo boot scancodes m
  /-- it is in `hlt` -/
  phase : m.phase = .hlt
  /-- nothing is fresh -/
  fresh : m.fresh = 0
  /-- and nothing is left -/
  settled : Settled m.sys

section

variable {boot : Sys} {scancodes : List UInt8} {m : Loop}

/-- A pause. -/
theorem FlowsTo.exists_pause (h : FlowsTo boot scancodes m) (hcatches : m.Catches)
    (hfresh : m.fresh ≤ 1023) (hself : Harmless boot (deliveredBytes scancodes)) :
    ∃ acts, keysOf acts = [] ∧ Paced m acts ∧ Waits boot scancodes (mainRun m acts) := by
  obtain ⟨n, k, hflows, hphase, hsettled⟩ := h.finishes hfresh hself
  have hkeys : keysOf (List.replicate n .run ++ .tick :: List.replicate k .run) = [] := by
    refine List.filterMap_eq_nil_iff.mpr fun act hact => ?_
    rcases List.mem_append.mp hact with hact | hact
    · rw [List.eq_of_mem_replicate hact]
    · rcases List.mem_cons.mp hact with rfl | hact
      · rfl
      · rw [List.eq_of_mem_replicate hact]
  refine ⟨_, hkeys, paced_pause hkeys hcatches hfresh, hflows, hphase, ?_, hsettled⟩
  rcases (mainRun_pause _ hkeys hcatches).1 with hpoll | hzero
  · rw [hphase] at hpoll
    cases hpoll
  · exact hzero

/-- A key, and a pause. -/
theorem Waits.exists_key (h : Waits boot scancodes m) (scancode : UInt8)
    (hself : Harmless boot (deliveredBytes (scancodes ++ [scancode]))) :
    ∃ acts, keysOf acts = [scancode] ∧ Paced m acts ∧
      Waits boot (scancodes ++ [scancode]) (mainRun m acts) := by
  have hfresh : (mainAct m (.key scancode)).fresh ≤ 1023 := by
    change m.fresh + (irqBytes m.sys.kbd scancode).length ≤ 1023
    have hlength := irqBytes_length_le m.sys.kbd scancode
    have hzero := h.fresh
    omega
  have hphase : (mainAct m (.key scancode)).phase = .poll := (congrArg Phase.wake h.phase).trans rfl
  obtain ⟨acts, hkeys, hpaced, hwaits⟩ :=
    (h.flows.key scancode hfresh).exists_pause (Or.inl hphase) hfresh hself
  have hstart : m.fresh ≤ 1023 := h.fresh.trans_le (Nat.zero_le _)
  refine ⟨.key scancode :: acts, congrArg (scancode :: ·) hkeys, ?_, hwaits⟩
  exact paced_iff.mpr ((paced_iff.mp hpaced).cons hstart)

end

/-- **Any scancodes** come in such a run. -/
theorem exists_paced (s : Sys) (scancodes : List UInt8)
    (hself : Harmless (kernelInput s) (deliveredBytes scancodes)) :
    ∃ acts, keysOf acts = scancodes ∧ Paced (mainBoot s) acts ∧
      Waits (kernelInput s) scancodes (mainRun (mainBoot s) acts) := by
  induction scancodes using List.reverseRecOn with
  | nil => exact (flowsTo_boot s).exists_pause (Or.inl rfl) (Nat.zero_le _) hself
  | append_singleton scancodes scancode ih =>
    obtain ⟨zs, hzs⟩ := deliveredBytes_append scancodes [scancode]
    have hbefore : Harmless (kernelInput s) (deliveredBytes scancodes ++ zs) := hzs ▸ hself
    obtain ⟨acts, hkeys, hpaced, hwaits⟩ := ih hbefore.left
    obtain ⟨acts', hkeys', hpaced', hwaits'⟩ := hwaits.exists_key scancode hself
    refine ⟨acts ++ acts', ?_, ?_, ?_⟩
    · rw [← hkeys, ← hkeys']
      exact List.filterMap_append
    · exact paced_iff.mpr ((paced_iff.mp hpaced).append (paced_iff.mp hpaced'))
    · rw [mainRun_append]
      exact hwaits'

/-! ## Lines -/

/-- A byte of a line that can be typed: the tab, and printable ASCII. Control characters are acted
upon and do not stay in a line, and no key makes a byte from 0x80 on. -/
def TypedByte (c : UInt8) : Prop := c = 0x09 ∨ 0x20 ≤ c ∧ c ≤ 0x7E

theorem typedByte_iff {c : UInt8} : TypedByte c ↔ DataByte c ∧ 0x01 ≤ c ∧ c ≤ 0x7E := by
  rw [TypedByte, DataByte]
  constructor
  · rintro (rfl | ⟨hlow, hhigh⟩)
    · decide
    · refine ⟨Or.inl ⟨hlow, ?_⟩, UInt8.le_trans (by decide) hlow, hhigh⟩
      rintro rfl
      exact absurd hhigh (by decide)
  · rintro ⟨⟨hlow, -⟩ | htab, -, hhigh⟩
    · exact Or.inr ⟨hlow, hhigh⟩
    · exact Or.inl htab

/-- The discipline delivers no byte that it has not read. -/
theorem Discipline.mem_step {d : Discipline} {byte b : UInt8}
    (h : b ∈ (d.step byte).1.line ∨ b ∈ (d.step byte).2) : b ∈ d.line ∨ b = byte := by
  have hline : b ∈ (lineStep d.line byte).1 ∨ b ∈ (lineStep d.line byte).2 →
      b ∈ d.line ∨ b = byte := by
    have herased : b ∈ d.line.dropLast → b ∈ d.line ∨ b = byte :=
      fun hmem => Or.inl (List.mem_of_mem_dropLast hmem)
    rw [lineStep]
    split_ifs <;> simp_all
  rw [Discipline.step] at h
  split at h
  · exact Or.inl (h.resolve_right List.not_mem_nil)
  · exact hline h

theorem Discipline.mem_feed (bytes : List UInt8) : ∀ {d : Discipline} {b : UInt8},
    b ∈ (Discipline.feed d bytes).2 → b ∈ d.line ∨ b ∈ bytes := by
  induction bytes with
  | nil => exact fun h => absurd h List.not_mem_nil
  | cons byte bytes ih =>
    intro d b h
    rw [Discipline.feed, Mealy.run_cons, ← Discipline.feed] at h
    rcases List.mem_append.mp h with h | h
    · exact (Discipline.mem_step (Or.inr h)).imp_right fun heq => List.mem_cons.mpr (Or.inl heq)
    · rcases ih h with h | h
      · exact (Discipline.mem_step (Or.inl h)).imp_right fun heq => List.mem_cons.mpr (Or.inl heq)
      · exact Or.inr (List.mem_cons_of_mem _ h)

/-- The lines of a stream hold data bytes of it. -/
theorem mem_typedLines {bytes line : List UInt8} (h : line ∈ typedLines bytes) :
    ∀ c ∈ line, DataByte c ∧ c ∈ bytes := by
  obtain ⟨i, -, hi⟩ := List.mem_filterMap.mp h
  split at hi
  · obtain rfl := Option.some.inj hi
    intro c hc
    obtain ⟨hmem, hdata⟩ := List.mem_filter.mp hc
    exact ⟨of_decide_eq_true hdata, List.mem_of_mem_take ((List.rtakeWhile_suffix _ _).mem hmem)⟩
  · cases hi

/-- Data ends no line. -/
theorem typedLines_data (bytes : List UInt8) {line : List UInt8} (hdata : ∀ c ∈ line, DataByte c) :
    typedLines (bytes ++ line) = typedLines bytes ∧
      sinceBreak (bytes ++ line) = sinceBreak bytes ++ line := by
  induction line using List.reverseRecOn with
  | nil => exact ⟨by rw [List.append_nil], by rw [List.append_nil, List.append_nil]⟩
  | append_singleton line c ih =>
    obtain ⟨hline, hc⟩ := List.forall_mem_append.mp hdata
    have hone : DataByte c := hc c (List.mem_singleton_self c)
    obtain ⟨hlines, hsince⟩ := ih hline
    have hin : InLine c = true := decide_eq_true ⟨hone.ne (by decide), hone.ne (by decide)⟩
    rw [← List.append_assoc, typedLines_concat, sinceBreak_concat, if_neg (hone.ne (by decide)),
      if_pos hin, if_pos hone, hlines, hsince, List.append_nil, List.append_assoc]
    exact ⟨rfl, rfl⟩

/-- Lines of data, one after the other. -/
theorem typedLines_stream {lines : List (List UInt8)}
    (hdata : ∀ line ∈ lines, ∀ c ∈ line, DataByte c) :
    typedLines (EditedLines.stream 0x0A lines) = lines ∧
      sinceBreak (EditedLines.stream 0x0A lines) = [] := by
  induction lines using List.reverseRecOn with
  | nil => exact ⟨rfl, rfl⟩
  | append_singleton lines line ih =>
    obtain ⟨hlines, hline⟩ := List.forall_mem_append.mp hdata
    obtain ⟨hbefore, hempty⟩ := ih hlines
    obtain ⟨hsame, hsince⟩ := typedLines_data (EditedLines.stream 0x0A lines)
      (hline line (List.mem_singleton_self line))
    have hstream : EditedLines.stream 0x0A (lines ++ [line]) =
        EditedLines.stream 0x0A lines ++ line ++ [0x0A] := by
      rw [EditedLines.stream_append, List.append_assoc]
      exact congrArg _ (List.flatMap_singleton ..)
    rw [hstream, typedLines_concat, sinceBreak_concat, if_pos rfl, hsame, hsince, hbefore, hempty,
      List.nil_append]
    exact ⟨rfl, rfl⟩

/-- The discipline passes lines of data on, if none of them is too long for it. -/
theorem Discipline.feed_stream {lines : List (List UInt8)}
    (hdata : ∀ line ∈ lines, ∀ c ∈ line, DataByte c) (hlen : ∀ line ∈ lines, line.length ≤ 127) :
    Discipline.feed ⟨0, []⟩ (EditedLines.stream 0x0A lines) =
      (⟨0, []⟩, EditedLines.stream 0x0A lines) := by
  refine Mealy.run_code fun line hline => ?_
  have hkind : ∀ c ∈ line, keyKind c = .data := fun c hc => (hdata line hline c hc).keyKind
  have hshort : (line ++ [0x0A]).length < ttyLineBufferSize := by
    rw [List.length_append, List.length_singleton]
    exact Nat.lt_of_le_of_lt (Nat.succ_le_succ (hlen line hline)) (by decide)
  have hfeed := Discipline.feed_line (fun c hc => Or.inl (hdata line hline c hc))
    (fitsLine_of_length hshort)
  rwa [EditedLines.editLine_data hkind] at hfeed

/-! ## Commands -/

/-- A command that was typed is short, and made of bytes that can be typed. -/
theorem mem_typedCommands {scancodes line : List UInt8} (h : line ∈ typedCommands scancodes) :
    line.length ≤ 127 ∧ ∀ c ∈ line, TypedByte c := by
  obtain ⟨typed, htyped, rfl⟩ := List.mem_map.mp h
  refine ⟨List.length_take_le .., fun c hc => ?_⟩
  obtain ⟨hdata, hdelivered⟩ := mem_typedLines htyped c (List.mem_of_mem_take hc)
  have hscanned : c ∈ scannedBytes scancodes :=
    (Discipline.mem_feed _ hdelivered).resolve_left List.not_mem_nil
  exact typedByte_iff.mpr ⟨hdata, keyboardRun_range machineStart scancodes c hscanned⟩

/-- Such lines are the commands of some scancodes. -/
theorem exists_typedCommands {lines : List (List UInt8)}
    (hlines : ∀ line ∈ lines, line.length ≤ 127 ∧ ∀ c ∈ line, TypedByte c) :
    ∃ scancodes, typedCommands scancodes = lines := by
  have hdata : ∀ line ∈ lines, ∀ c ∈ line, DataByte c :=
    fun line hline c hc => (typedByte_iff.mp ((hlines line hline).2 c hc)).1
  have hrange : ∀ c ∈ EditedLines.stream 0x0A lines, 0x01 ≤ c ∧ c ≤ 0x7E := by
    intro c hc
    obtain ⟨line, hline, hmem⟩ := List.mem_flatMap.mp hc
    rcases List.mem_append.mp hmem with hmem | hmem
    · exact (typedByte_iff.mp ((hlines line hline).2 c hmem)).2
    · rw [List.mem_singleton.mp hmem]
      decide
  obtain ⟨scancodes, hscanned⟩ := exists_typed machineStart hrange
  refine ⟨scancodes, ?_⟩
  rw [typedCommands, deliveredBytes, scannedBytes, hscanned,
    Discipline.feed_stream hdata fun line hline => (hlines line hline).1,
    (typedLines_stream hdata).1,
    List.map_congr_left fun line hline => List.take_of_length_le (hlines line hline).1,
    List.map_id']

/-- **The commands that can be typed**: of the sequences that hold no `selftest`, a run that keeps
pace executes exactly those of at most 127 tabs and printable ASCII characters each. -/
theorem mainRun_commands_iff (s : Sys) (lines : List (List UInt8)) :
    (∃ acts, Paced (mainBoot s) acts ∧
        (∀ line ∈ typedCommands (keysOf acts), ¬IsSelftest line) ∧
        executed (mainRun (mainBoot s) acts).sys.calls = executed (kernelInput s).calls ++ lines) ↔
      ∀ line ∈ lines, line.length ≤ 127 ∧ (∀ c ∈ line, TypedByte c) ∧ ¬IsSelftest line := by
  have hempty := kernelInput_shellLen s
  constructor
  · rintro ⟨acts, hpaced, hself, hexecuted⟩ line hline
    have hrun := FlowsTo.run acts (flowsTo_boot s) hpaced ((harmless_typed_iff s _).mpr hself)
    have hfront := hrun.executed_front hempty
    rw [hexecuted, List.nil_append] at hfront
    have htyped : line ∈ typedCommands (keysOf acts) :=
      ((List.prefix_append_right_inj _).mp hfront).mem hline
    obtain ⟨hlen, hbytes⟩ := mem_typedCommands htyped
    exact ⟨hlen, hbytes, hself line htyped⟩
  · intro h
    obtain ⟨scancodes, hcommands⟩ :=
      exists_typedCommands fun line hline => ⟨(h line hline).1, (h line hline).2.1⟩
    have hself : ∀ line ∈ typedCommands scancodes, ¬IsSelftest line := by
      rw [hcommands]
      exact fun line hline => (h line hline).2.2
    obtain ⟨acts, hkeys, hpaced, hwaits⟩ :=
      exists_paced s scancodes ((harmless_typed_iff s scancodes).mpr hself)
    refine ⟨acts, hpaced, hkeys ▸ hself, ?_⟩
    rw [hwaits.flows.executed_settled hempty hwaits.phase hwaits.settled, hcommands]

end WaluOs
