import WaluOs.Storaged

/-!
# The audit log of the storage gate

Every decision of `storaged` appends a line to its log, and the device is written into it
as it came from the command line. `StoragedRequest.device` is the string that is logged:
what the arguments name, whether it is a device or not.

Without newlines in it a line tells its event, since no two endings of `storaged`'s own
lines are endings of each other (`logText_injective`); and the file tells its lines. With
one newline a request writes two lines, and may write what it likes into the second
(`auditFile_determines_iff`).
-/

namespace WaluOs

open CStrings

/-- The line of an event, without its newline. -/
def logText (e : AuditEvent) : List UInt8 :=
  lit "op=" ++ e.op ++ (lit " device=" ++ e.device ++ (lit " result=" ++ e.result ++
    (lit " detail=" ++ e.detail)))

/-- What a sequence of calls of `audit_event` appends to its file. The strings are written as they
are, with nothing escaped. -/
def auditFile (events : List AuditEvent) : List UInt8 :=
  events.flatMap fun e => logText e ++ [0x0A]

/-- A run of `storaged`: the command line, and what the system answers to it. Each run has a
system of its own, since anything may change between two. -/
structure StoragedRequest : Type where
  /-- what the system answers -/
  sys : StorageSystem
  /-- the command line -/
  argv : List (List UInt8)

/-- The events of some runs, one after the other, as they happened. -/
def auditEvents (requests : List StoragedRequest) : List AuditEvent :=
  requests.flatMap fun r => (storagedMain r.sys r.argv).audit

/-- The device in the arguments of `probe`. -/
def probeDevice (words : List (List UInt8)) : Option (List UInt8) :=
  match words with
  | [option, device] => if option = lit "--device" then some device else none
  | _ => none

/-- The device that the arguments name. -/
def StoragedRequest.device (r : StoragedRequest) : Option (List UInt8) :=
  match r.argv with
  | _ :: command :: words =>
    if command = lit "probe" then probeDevice words
    else if command = lit "format" then (parseFormatArgs words).map Prod.fst
    else none
  | _ => none

/-- The file has one line for each event, in order, so that counting and reading lines is counting
and reading events. -/
def OneLineEach (events : List AuditEvent) : Prop :=
  (auditFile events).splitOn 0x0A = events.map logText ++ [[]]

/-! ## The events of `storaged` -/

/-- The operations, results and details of `storaged`'s own calls. -/
def auditKinds : List (String × String × String) :=
  [("probe", "deny", "invalid-path"), ("probe", "ok", "reported"),
    ("format", "deny", "invalid-path"), ("format", "deny", "not-block-device"),
    ("format", "dry-run", "policy-check-only"), ("format", "deny", "mounted"),
    ("format", "deny", "missing-force-confirm-yes"), ("format", "approved", "force-confirm-yes")]

/-- An event of one of these kinds. -/
def IsOwn (e : AuditEvent) : Prop :=
  ∃ k ∈ auditKinds, e.op = lit k.1 ∧ e.result = lit k.2.1 ∧ e.detail = lit k.2.2

/-- One event, for this device. -/
structure AuditsOnce (device : List UInt8) (audit : List AuditEvent) : Prop where
  /-- it is one of `storaged`'s own -/
  once : ∃ e, audit = [e] ∧ e.device = device ∧ IsOwn e

theorem auditEvent_once {op result detail : String} (hkind : (op, result, detail) ∈ auditKinds)
    (device : List UInt8) : AuditsOnce device [auditEvent op device result detail] :=
  ⟨_, rfl, rfl, _, hkind, rfl, rfl, rfl⟩

theorem commandProbe_audits (sys : StorageSystem) (device : List UInt8) :
    AuditsOnce device (commandProbe sys device).audit := by
  rw [commandProbe]
  split
  · exact auditEvent_once (by decide) device
  · exact auditEvent_once (by decide) device

theorem commandFormat_audits (sys : StorageSystem) (device : List UInt8) (args : FormatArgs) :
    AuditsOnce device (commandFormat sys device args).audit := by
  rw [commandFormat]
  split_ifs
  · exact auditEvent_once (by decide) device
  · exact auditEvent_once (by decide) device
  · exact auditEvent_once (by decide) device
  · exact auditEvent_once (by decide) device
  · exact auditEvent_once (by decide) device
  · exact auditEvent_once (by decide) device

theorem mainProbe_audits (sys : StorageSystem) (words : List (List UInt8)) :
    (probeDevice words = none ∧ (mainProbe sys words).audit = []) ∨
      ∃ device, probeDevice words = some device ∧
        AuditsOnce device (mainProbe sys words).audit := by
  rcases words with _ | ⟨option, _ | ⟨device, _ | ⟨_, _⟩⟩⟩
  · exact Or.inl ⟨rfl, rfl⟩
  · exact Or.inl ⟨rfl, rfl⟩
  · rw [probeDevice, mainProbe]
    split_ifs
    · exact Or.inr ⟨device, rfl, commandProbe_audits sys device⟩
    · exact Or.inl ⟨rfl, rfl⟩
  · exact Or.inl ⟨rfl, rfl⟩

theorem mainFormat_audits (sys : StorageSystem) (words : List (List UInt8)) :
    ((parseFormatArgs words).map Prod.fst = none ∧ (mainFormat sys words).audit = []) ∨
      ∃ device, (parseFormatArgs words).map Prod.fst = some device ∧
        AuditsOnce device (mainFormat sys words).audit := by
  rw [mainFormat]
  cases parseFormatArgs words with
  | none => exact Or.inl ⟨rfl, rfl⟩
  | some parsed => exact Or.inr ⟨parsed.1, rfl, commandFormat_audits sys _ _⟩

/-- **What a run logs**: one event if its arguments name a device, for that device. -/
theorem StoragedRequest.audits (r : StoragedRequest) :
    (r.device = none ∧ (storagedMain r.sys r.argv).audit = []) ∨
      ∃ device, r.device = some device ∧ AuditsOnce device (storagedMain r.sys r.argv).audit := by
  obtain ⟨sys, argv⟩ := r
  rcases argv with _ | ⟨name, _ | ⟨command, words⟩⟩
  · exact Or.inl ⟨rfl, rfl⟩
  · exact Or.inl ⟨rfl, rfl⟩
  · rw [device, storagedMain]
    dsimp only
    split_ifs
    · exact mainProbe_audits sys words
    · exact mainFormat_audits sys words
    · exact Or.inl ⟨rfl, rfl⟩

/-- The events are `storaged`'s own, and their devices are those of the command lines. -/
theorem mem_auditEvents {requests : List StoragedRequest} {e : AuditEvent}
    (h : e ∈ auditEvents requests) :
    IsOwn e ∧ ∃ r ∈ requests, r.device = some e.device := by
  obtain ⟨r, hr, he⟩ := List.mem_flatMap.mp h
  rcases r.audits with ⟨-, hnone⟩ | ⟨device, hdevice, e', hone, rfl, hown⟩
  · rw [hnone] at he
    exact absurd he List.not_mem_nil
  · rw [hone] at he
    obtain rfl := List.mem_singleton.mp he
    exact ⟨hown, r, hr, hdevice⟩

theorem exists_auditEvent {requests : List StoragedRequest} {r : StoragedRequest}
    (hr : r ∈ requests) {device : List UInt8} (hdevice : r.device = some device) :
    ∃ e ∈ auditEvents requests, e.device = device := by
  rcases r.audits with ⟨hnone, -⟩ | ⟨device', hdevice', e, hone, rfl, -⟩
  · rw [hnone] at hdevice
    exact absurd hdevice.symm (Option.some_ne_none _)
  · refine ⟨e, List.mem_flatMap.mpr ⟨r, hr, ?_⟩, Option.some.inj (hdevice'.symm.trans hdevice)⟩
    rw [hone]
    exact List.mem_singleton_self e

/-! ## Lines -/

/-- What the events write, one line each, if no newline is in a line. -/
theorem splitOn_auditFile {events : List AuditEvent} (h : ∀ e ∈ events, 0x0A ∉ logText e) :
    OneLineEach events := by
  rw [OneLineEach]
  induction events with
  | nil => rfl
  | cons e events ih =>
    obtain ⟨he, hrest⟩ := List.forall_mem_cons.mp h
    have hfile : auditFile (e :: events) = logText e ++ 0x0A :: auditFile events := by
      rw [auditFile, List.flatMap_cons, List.append_assoc]
      rfl
    rw [hfile, List.splitOn_append_cons_self_of_not_mem he, ih hrest]
    rfl

/-- A line has no newline in it. -/
theorem OneLineEach.newline_notMem {events : List AuditEvent} (h : OneLineEach events) :
    ∀ e ∈ events, 0x0A ∉ logText e := by
  intro e he hnewline
  have hpiece : logText e ∈ (auditFile events).splitOn 0x0A := by
    rw [h]
    exact List.mem_append_left _ (List.mem_map_of_mem he)
  rw [List.splitOn_eq_splitOnP] at hpiece
  have hnone := delim_of_mem_splitOnP hpiece _ hnewline
  exact absurd hnone (by decide)

/-- The only newlines in an own event are those of its device. -/
theorem IsOwn.newline_mem_logText {e : AuditEvent} (h : IsOwn e) :
    0x0A ∈ logText e ↔ 0x0A ∈ e.device := by
  obtain ⟨kind, hkind, hop, hresult, hdetail⟩ := h
  have hkinds : ∀ k ∈ auditKinds,
      0x0A ∉ lit k.1 ∧ 0x0A ∉ lit k.2.1 ∧ 0x0A ∉ lit k.2.2 := by decide
  obtain ⟨hop', hresult', hdetail'⟩ := hkinds kind hkind
  have hlabels : 0x0A ∉ lit "op=" ∧ 0x0A ∉ lit " device=" ∧ 0x0A ∉ lit " result=" ∧
      0x0A ∉ lit " detail=" := by decide
  rw [← hop] at hop'
  rw [← hresult] at hresult'
  rw [← hdetail] at hdetail'
  simp only [logText, List.mem_append, hlabels.1, hlabels.2.1, hlabels.2.2.1, hlabels.2.2.2, hop',
    hresult', hdetail', false_or, or_false]

/-! ## What a line tells -/

/-- What stands behind the device. -/
def logTail (k : String × String × String) : List UInt8 :=
  lit " result=" ++ lit k.2.1 ++ lit " detail=" ++ lit k.2.2

/-- An own event, from its kind. -/
theorem logText_of_kind {e : AuditEvent} {k : String × String × String} (hop : e.op = lit k.1)
    (hresult : e.result = lit k.2.1) (hdetail : e.detail = lit k.2.2) :
    logText e = lit "op=" ++ lit k.1 ++ lit " device=" ++ (e.device ++ logTail k) := by
  rw [logText, logTail, hop, hresult, hdetail]
  simp only [List.append_assoc]

/-- Two heads of the same length differ if the operations do. -/
theorem op_of_heads : ∀ k ∈ auditKinds, ∀ k' ∈ auditKinds,
    (lit "op=" ++ lit k.1 ++ lit " device=").take 4 =
      (lit "op=" ++ lit k'.1 ++ lit " device=").take 4 → k.1 = k'.1 := by decide

/-- No tail ends in another. -/
theorem eq_of_tails : ∀ k ∈ auditKinds, ∀ k' ∈ auditKinds, k.1 = k'.1 →
    logTail k <:+ logTail k' → k = k' := by decide +kernel

/-- The first four bytes are in the head. -/
theorem four_le_head : ∀ k ∈ auditKinds,
    4 ≤ (lit "op=" ++ lit k.1 ++ lit " device=").length := by decide

/-- **A line tells its event.** -/
theorem logText_injective {e e' : AuditEvent} (h : IsOwn e) (h' : IsOwn e')
    (heq : logText e = logText e') : e = e' := by
  obtain ⟨k, hk, hop, hresult, hdetail⟩ := h
  obtain ⟨k', hk', hop', hresult', hdetail'⟩ := h'
  rw [logText_of_kind hop hresult hdetail, logText_of_kind hop' hresult' hdetail'] at heq
  have hops : k.1 = k'.1 := by
    refine op_of_heads k hk k' hk' ?_
    have hfour := congrArg (List.take 4) heq
    rwa [List.take_append_of_le_length (four_le_head k hk),
      List.take_append_of_le_length (four_le_head k' hk')] at hfour
  rw [hops] at heq
  have hrest : e.device ++ logTail k = e'.device ++ logTail k' := List.append_cancel_left heq
  -- both lines end with their tails, so one tail ends with the other
  have hkinds : k = k' := by
    have hsuffix : logTail k <:+ e'.device ++ logTail k' := ⟨e.device, hrest⟩
    rcases List.suffix_or_suffix_of_suffix hsuffix (List.suffix_append _ _) with htail | htail
    · exact eq_of_tails k hk k' hk' hops htail
    · exact (eq_of_tails k' hk' k hk hops.symm htail).symm
  subst hkinds
  obtain ⟨op, device, result, detail⟩ := e
  obtain ⟨op', device', result', detail'⟩ := e'
  obtain rfl : op = op' := hop.trans hop'.symm
  obtain rfl : result = result' := hresult.trans hresult'.symm
  obtain rfl : detail = detail' := hdetail.trans hdetail'.symm
  obtain rfl : device = device' := List.append_cancel_right hrest
  rfl

/-- Lines that tell their events tell the list of them. -/
theorem map_logText_injective {events : List AuditEvent} :
    ∀ {events' : List AuditEvent}, (∀ e ∈ events, IsOwn e) → (∀ e ∈ events', IsOwn e) →
      events.map logText = events'.map logText → events = events' := by
  induction events with
  | nil =>
    intro events' _ _ heq
    exact (List.map_eq_nil_iff.mp heq.symm).symm
  | cons e events ih =>
    intro events' hown hown' heq
    cases events' with
    | nil => exact absurd heq (List.cons_ne_nil _ _)
    | cons e' events' =>
      obtain ⟨hline, hlines⟩ := List.cons.inj heq
      obtain ⟨he, hrest⟩ := List.forall_mem_cons.mp hown
      obtain ⟨he', hrest'⟩ := List.forall_mem_cons.mp hown'
      rw [logText_injective he he' hline, ih hrest hrest' hlines]

/-! ## The theorem -/

/-- No command line names a device with a newline in it. Nothing but the device is taken over from
a command line. -/
def NoNewline (requests : List StoragedRequest) : Prop :=
  ∀ r ∈ requests, ∀ device, r.device = some device → 0x0A ∉ device

theorem oneLineEach_iff (requests : List StoragedRequest) :
    OneLineEach (auditEvents requests) ↔ NoNewline requests := by
  constructor
  · intro h r hr device hdevice
    obtain ⟨e, he, rfl⟩ := exists_auditEvent hr hdevice
    exact mt (mem_auditEvents he).1.newline_mem_logText.mpr (h.newline_notMem e he)
  · intro h
    refine splitOn_auditFile fun e he => ?_
    obtain ⟨hown, r, hr, hdevice⟩ := mem_auditEvents he
    exact mt hown.newline_mem_logText.mp (h r hr _ hdevice)

/-- **The log**: it has one line for each event and tells the events if no device has a newline
in it, and only then. -/
theorem auditFile_determines_iff (xs ys : List StoragedRequest) :
    (OneLineEach (auditEvents xs) ∧ OneLineEach (auditEvents ys) ∧
        (auditFile (auditEvents xs) = auditFile (auditEvents ys) →
          auditEvents xs = auditEvents ys)) ↔
      NoNewline xs ∧ NoNewline ys := by
  constructor
  · rintro ⟨hxs, hys, -⟩
    exact ⟨(oneLineEach_iff xs).mp hxs, (oneLineEach_iff ys).mp hys⟩
  · rintro ⟨hxs, hys⟩
    have hlines := (oneLineEach_iff xs).mpr hxs
    have hlines' := (oneLineEach_iff ys).mpr hys
    refine ⟨hlines, hlines', fun heq => ?_⟩
    rw [OneLineEach, heq, hlines'] at hlines
    exact (map_logText_injective (fun e he => (mem_auditEvents he).1)
      (fun e he => (mem_auditEvents he).1) (List.append_cancel_right hlines)).symm

/-- A system with one unmounted disk, `/dev/sda`. -/
def oneDisk : StorageSystem where
  isBlockDevice device := device = lit "/dev/sda"
  isDeviceMounted _ := false
  popen _ := none

/-- `storaged format --device` with other options. -/
def formatRequest (device : List UInt8) (options : List (List UInt8)) : StoragedRequest :=
  ⟨oneDisk, [lit "storaged", lit "format", lit "--device", device] ++ options⟩

/-- A device that is none, with the approval of another one in its name. -/
def forgedDevice : List UInt8 :=
  lit "x result=deny detail=invalid-path\nop=format device=/dev/sda result=approved " ++
    lit "detail=force-confirm-yes\nop=format device=y"

/-- A single request, which is denied. -/
def forgingRuns : List StoragedRequest := [formatRequest forgedDevice []]

/-- Two denied requests, and one for the disk that is approved. -/
def approvingRuns : List StoragedRequest :=
  [formatRequest (lit "x") [],
    formatRequest (lit "/dev/sda") [lit "--force", lit "--confirm", lit "/dev/sda", lit "--yes"],
    formatRequest (lit "y") []]

/-- A denied request writes the record of an approval. -/
theorem forged_approval :
    auditFile (auditEvents forgingRuns) = auditFile (auditEvents approvingRuns) ∧
      auditEvents forgingRuns ≠ auditEvents approvingRuns ∧
      (auditEvents forgingRuns).map AuditEvent.result = [lit "deny"] ∧
      (auditEvents approvingRuns).map AuditEvent.result =
        [lit "deny", lit "approved", lit "deny"] := by
  decide +kernel

end WaluOs
