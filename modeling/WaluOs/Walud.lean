import WaluOs.Userland

/-!
# Starting a unit

`walud start` reads a unit file, checks it, and runs its `ExecStart` in a child, as the user
that the unit names. The file is text from anywhere; what the system answers to `fork`,
`getpwnam`, `setgid` and `setuid` is a parameter.

What a run did is the list of its events, the parent's and the child's. `walud_start_execv`
says what has happened whenever `execv` is one of them.
-/

namespace WaluOs

open CStrings

/-! ## The program -/

/-- `unit_service_t`, with its buffers as strings. A field that was never assigned is empty. -/
structure UnitService : Type where
  /-- `description` -/
  description : List UInt8
  /-- `after` -/
  after : List UInt8
  /-- `requires` -/
  requires : List UInt8
  /-- `exec_start` -/
  execStart : List UInt8
  /-- `user` -/
  user : List UInt8
  /-- `restart` -/
  restart : List UInt8
  /-- `wanted_by` -/
  wantedBy : List UInt8
  deriving DecidableEq, Repr

/-- An entry of the user database, as far as it is used. -/
structure Passwd : Type where
  /-- `pw_uid` -/
  uid : ℕ
  /-- `pw_gid` -/
  gid : ℕ
  deriving DecidableEq, Repr

/-- What `waitpid` says of the child. -/
inductive WaitStatus : Type where
  /-- `WIFEXITED`, with its status -/
  | exited : ℕ → WaitStatus
  /-- `WIFSIGNALED`, with its signal -/
  | signaled : ℕ → WaitStatus
  /-- neither -/
  | other : WaitStatus
  deriving DecidableEq, Repr

/-- What `walud` does to the world, in the order in which it does it. The two processes have a
sequence of these each. -/
inductive WaludEvent : Type where
  /-- `log_info` or `log_error` -/
  | log : LogLine → WaludEvent
  /-- text on the standard output -/
  | stdout : List UInt8 → WaludEvent
  /-- text on the standard error -/
  | stderr : List UInt8 → WaludEvent
  /-- `getpwnam`, and the entry it returns -/
  | getpwnam : List UInt8 → Option Passwd → WaludEvent
  /-- `setgid`, and whether it succeeds -/
  | setgid : ℕ → Bool → WaludEvent
  /-- `setuid`, and whether it succeeds -/
  | setuid : ℕ → Bool → WaludEvent
  /-- `execv`, with the path and the slots of the argument vector -/
  | execv : List UInt8 → List (Option (List UInt8)) → WaludEvent
  /-- `_exit` -/
  | exit : ℕ → WaludEvent
  deriving DecidableEq, Repr

/-- What the system answers. The program cannot know these answers in advance, so everything said
of its runs holds for all of them. -/
structure WaludSystem : Type where
  /-- what is in a file, if `fopen` can open it -/
  fopen : List UInt8 → Option (List UInt8)
  /-- `fork` succeeds -/
  fork : Bool
  /-- `getpwnam` -/
  getpwnam : List UInt8 → Option Passwd
  /-- `setgid` succeeds -/
  setgid : ℕ → Bool
  /-- `setuid` succeeds -/
  setuid : ℕ → Bool
  /-- `execv` fails and returns -/
  execvReturns : List UInt8 → List (Option (List UInt8)) → Bool
  /-- `waitpid`, if it succeeds, for a child that has done this -/
  waitpid : List WaludEvent → Option WaitStatus

/-- What a run has done when the parent exits. -/
structure WaludRun : Type where
  /-- what the parent did -/
  parent : List WaludEvent
  /-- what the child did -/
  child : List WaludEvent
  /-- the exit status of the parent -/
  status : ℕ
  deriving DecidableEq, Repr

/-- The blanks of `trim`, which also takes a carriage return and a newline off. -/
def isBlank (b : UInt8) : Bool := b = 0x20 ∨ b = 0x09 ∨ b = 0x0A ∨ b = 0x0D

/-- The assignments of `parse_unit_file`. -/
def UnitService.assign (unit : UnitService) (inSection key value : List UInt8) : UnitService :=
  if inSection = lit "Unit" then
    if key = lit "Description" then { unit with description := snprintf 128 value }
    else if key = lit "After" then { unit with after := snprintf 128 value }
    else if key = lit "Requires" then { unit with requires := snprintf 128 value }
    else unit
  else if inSection = lit "Service" then
    if key = lit "ExecStart" then { unit with execStart := snprintf 256 value }
    else if key = lit "User" then { unit with user := snprintf 64 value }
    else if key = lit "Restart" then { unit with restart := snprintf 32 value }
    else unit
  else if inSection = lit "Install" then
    if key = lit "WantedBy" then { unit with wantedBy := snprintf 64 value }
    else unit
  else unit

/-- The locals of `parse_unit_file`: the section that the next assignment is in, and the unit so
far. -/
structure UnitParse : Type where
  /-- `section` -/
  inSection : List UInt8
  /-- `unit` -/
  unit : UnitService
  deriving DecidableEq, Repr

/-- What the loop of `parse_unit_file` does with a line, unless its header is malformed. -/
def parseUnitLine (st : UnitParse) (line : List UInt8) : Option UnitParse :=
  let p := trim isBlank (cstr line)
  if p = [] ∨ p.head? = some 0x23 ∨ p.head? = some 0x3B then some st
  else if p.head? = some 0x5B then
    if 0x5D ∈ p then
      some { st with inSection := snprintf 32 ((p.takeWhile fun c => c ≠ 0x5D).drop 1) }
    else none
  else if 0x3D ∈ p then
    some { st with
      unit := st.unit.assign st.inSection (trim isBlank (p.takeWhile fun c => c ≠ 0x3D))
        (trim isBlank ((p.dropWhile fun c => c ≠ 0x3D).drop 1)) }
  else some st

/-- The loop of `parse_unit_file`, or the number of the line that stops it. -/
def parseUnitLoop : ℕ → UnitParse → List (List UInt8) → Except ℕ UnitService
  | _, st, [] => .ok st.unit
  | lineNo, st, line :: lines =>
    match parseUnitLine st line with
    | none => .error (lineNo + 1)
    | some st' => parseUnitLoop (lineNo + 1) st' lines

/-- The unit, and the section, of `memset`. -/
def unitStart : UnitParse := ⟨[], ⟨[], [], [], [], [], [], []⟩⟩

/-- `parse_unit_file`, or what it complains of. Besides a file that cannot be opened the only
error is a header that does not end; everything else that is not understood is skipped. -/
def parseUnitFile (path : List UInt8) (content : Option (List UInt8)) :
    Except WaludEvent UnitService :=
  match content with
  | none => .error (.log (logError "walud" "failed to open unit file"))
  | some content =>
    (parseUnitLoop 0 unitStart (fgets 512 content)).mapError fun lineNo =>
      .stderr (lit "walud: " ++ path ++ lit ":" ++ lit (toString lineNo) ++
        lit ": malformed section header\n")

/-- `validate_unit`, or what it complains of: the first of the four tests that fails. -/
def validateUnit (unit : UnitService) : Except WaludEvent Unit :=
  if unit.description = [] then .error (.log (logError "walud" "missing Unit.Description"))
  else if unit.execStart = [] then .error (.log (logError "walud" "missing Service.ExecStart"))
  else if unit.execStart.head? ≠ some 0x2F then
    .error (.log (logError "walud" "Service.ExecStart must be an absolute path"))
  else if unit.restart ≠ [] ∧ unit.restart ≠ lit "no" ∧ unit.restart ≠ lit "on-failure" ∧
      unit.restart ≠ lit "always" then
    .error (.log (logError "walud" "Service.Restart must be no|on-failure|always"))
  else .ok ()

/-- `print_unit` -/
def printUnit (unit : UnitService) : List WaludEvent :=
  [.stdout (lit "Description=" ++ unit.description ++ [0x0A]),
    .stdout (lit "After=" ++ unit.after ++ [0x0A]),
    .stdout (lit "Requires=" ++ unit.requires ++ [0x0A]),
    .stdout (lit "ExecStart=" ++ unit.execStart ++ [0x0A]),
    .stdout (lit "User=" ++ unit.user ++ [0x0A]),
    .stdout (lit "Restart=" ++ unit.restart ++ [0x0A]),
    .stdout (lit "WantedBy=" ++ unit.wantedBy ++ [0x0A])]

/-- `" \t"` -/
def isSpaceOrTab (b : UInt8) : Bool := b = 0x20 ∨ b = 0x09

/-- The tokens that `split_exec_start` writes into a vector of `maxArgv` slots. -/
def splitExecStart (line : List UInt8) (maxArgv : ℕ) : List (List UInt8) :=
  tokens isSpaceOrTab (maxArgv - 1) line

/-- The slots of the vector that are written: a pointer for each word, and the `NULL` behind them.
-/
def argvSlots (argv : List (List UInt8)) : List (Option (List UInt8)) := argv.map some ++ [none]

/-- `apply_unit_user`, and whether it succeeds. -/
def applyUnitUser (sys : WaludSystem) (unit : UnitService) : List WaludEvent × Bool :=
  if unit.user = [] ∨ unit.user = lit "root" then ([], true)
  else
    match sys.getpwnam unit.user with
    | none =>
      ([.getpwnam unit.user none, .log (logError "walud" "Service.User not found")], false)
    | some pw =>
      if sys.setgid pw.gid = false then
        ([.getpwnam unit.user (some pw), .setgid pw.gid false,
          .log (logError "walud" "setgid failed")], false)
      else if sys.setuid pw.uid = false then
        ([.getpwnam unit.user (some pw), .setgid pw.gid true, .setuid pw.uid false,
          .log (logError "walud" "setuid failed")], false)
      else
        ([.getpwnam unit.user (some pw), .setgid pw.gid true, .setuid pw.uid true], true)

/-- The child of `start_unit`. -/
def startChild (sys : WaludSystem) (unit : UnitService) (path : List UInt8)
    (argv : List (Option (List UInt8))) : List WaludEvent :=
  let (events, ok) := applyUnitUser sys unit
  if ok = false then events ++ [.exit 126]
  else if sys.execvReturns path argv then events ++ [.execv path argv, .exit 127]
  else events ++ [.execv path argv]

/-- The parent of `start_unit`, after `fork`: its events and what it returns. -/
def startParent : Option WaitStatus → List WaludEvent × ℕ
  | none => ([.log (logError "walud" "waitpid failed")], 7)
  | some (.exited ec) =>
    if ec = 0 then ([.log (logInfo "walud" "unit exited successfully")], ec)
    else ([.log (logError "walud" "unit exited with non-zero status")], ec)
  | some (.signaled sig) => ([.log (logError "walud" "unit terminated by signal")], 128 + sig)
  | some .other => ([], 8)

/-- `start_unit`. The words come from a copy of 256 bytes and there are at most 31 of them; what
does not fit is cut off without a message. -/
def startUnit (sys : WaludSystem) (unit : UnitService) : WaludRun :=
  match splitExecStart (snprintf 256 unit.execStart) 32 with
  | [] => ⟨[.log (logError "walud" "ExecStart parse failed")], [], 5⟩
  | path :: args =>
    if sys.fork = false then ⟨[.log (logError "walud" "fork failed")], [], 6⟩
    else
      let child := startChild sys unit path (argvSlots (path :: args))
      let (parent, status) := startParent (sys.waitpid child)
      ⟨parent, child, status⟩

/-- `print_usage`, and exit. -/
def waludUsage : WaludRun :=
  ⟨[.stdout (putsLine "Usage: walud <validate|show|start> <unit-file>")], [], 1⟩

/-- The commands of `main`, on a unit. -/
def mainCommand (sys : WaludSystem) (command : List UInt8) (unit : UnitService) : WaludRun :=
  if command = lit "validate" then
    match validateUnit unit with
    | .error complaint => ⟨[complaint], [], 3⟩
    | .ok () => ⟨[.log (logInfo "walud" "unit validation succeeded")], [], 0⟩
  else if command = lit "show" then ⟨printUnit unit, [], 0⟩
  else if command = lit "start" then
    match validateUnit unit with
    | .error complaint => ⟨[complaint], [], 3⟩
    | .ok () => startUnit sys unit
  else waludUsage

/-- `main` -/
def waludMain (sys : WaludSystem) (argv : List (List UInt8)) : WaludRun :=
  match argv with
  | [_, command, path] =>
    match parseUnitFile path (sys.fopen path) with
    | .error complaint => ⟨[complaint], [], 2⟩
    | .ok unit => mainCommand sys command unit
  | _ => waludUsage

/-! ## What is executed -/

/-- The first token of a text that begins with a slash. -/
theorem splitExecStart_absolute {line path : List UInt8} {args : List (List UInt8)} {maxArgv : ℕ}
    (hline : line.head? = some 0x2F) (h : splitExecStart line maxArgv = path :: args) :
    path.head? = some 0x2F ∧ (0x20 ∉ path ∧ 0x09 ∉ path) ∧ args.length + 1 ≤ maxArgv - 1 := by
  rw [splitExecStart, tokens_eq] at h
  have hlen : args.length + 1 ≤ maxArgv - 1 := by
    rw [← List.length_cons, ← h]
    exact List.length_take_le _ _
  obtain ⟨ws, hwords⟩ : ∃ ws, words isSpaceOrTab line = path :: ws := by
    cases hwords : words isSpaceOrTab line with
    | nil =>
      rw [hwords, List.take_nil] at h
      exact absurd h.symm (List.cons_ne_nil _ _)
    | cons w ws =>
      obtain ⟨n, hn⟩ : ∃ n, maxArgv - 1 = n + 1 := Nat.exists_eq_add_one.mpr (by omega)
      rw [hwords, hn, List.take_succ_cons] at h
      exact ⟨ws, by rw [(List.cons.inj h).1]⟩
  obtain ⟨-, hclean⟩ := mem_words (hwords ▸ List.mem_cons_self : path ∈ words isSpaceOrTab line)
  refine ⟨?_, ⟨fun hspace => ?_, fun htab => ?_⟩, hlen⟩
  · obtain ⟨rest, rfl⟩ := List.head?_eq_some_iff.mp hline
    exact head?_of_words_eq_cons rfl hwords
  · exact absurd (hclean _ hspace) (by decide)
  · exact absurd (hclean _ htab) (by decide)

/-- A unit that is accepted has an absolute `ExecStart`. -/
theorem validateUnit_ok {unit : UnitService} (h : validateUnit unit = .ok ()) :
    unit.execStart.head? = some 0x2F := by
  rw [validateUnit] at h
  split_ifs at h with hdescription hexec habsolute hrestart
  exact not_not.mp habsolute

/-- The user that a child has become. The group is changed first, while the process may still do
so. -/
structure Becomes (sys : WaludSystem) (user : List UInt8) (pw : Passwd) (events : List WaludEvent) :
    Prop where
  /-- the user is known -/
  known : sys.getpwnam user = some pw
  /-- the group can be changed -/
  setgid : sys.setgid pw.gid = true
  /-- and then the user -/
  setuid : sys.setuid pw.uid = true
  /-- nothing else has been done -/
  only : events = [.getpwnam user (some pw), .setgid pw.gid true, .setuid pw.uid true]

/-- A child goes on as `root`, or as the user of the unit. -/
theorem applyUnitUser_ok {sys : WaludSystem} {unit : UnitService}
    (h : (applyUnitUser sys unit).2 = true) (huser : unit.user ≠ [] ∧ unit.user ≠ lit "root") :
    ∃ pw, Becomes sys unit.user pw (applyUnitUser sys unit).1 := by
  have hother : ¬(unit.user = [] ∨ unit.user = lit "root") := not_or.mpr huser
  rw [applyUnitUser, if_neg hother] at h ⊢
  cases hpw : sys.getpwnam unit.user with
  | none =>
    rw [hpw] at h
    exact absurd h Bool.false_ne_true
  | some pw =>
    rw [hpw] at h
    dsimp only at h ⊢
    split_ifs at h ⊢ with hgid huid
    exact ⟨pw, hpw, Bool.of_not_eq_false hgid, Bool.of_not_eq_false huid, rfl⟩

/-- `apply_unit_user` executes nothing. -/
theorem execv_notMem_applyUnitUser (sys : WaludSystem) (unit : UnitService) (path : List UInt8)
    (argv : List (Option (List UInt8))) : .execv path argv ∉ (applyUnitUser sys unit).1 := by
  rw [applyUnitUser]
  split
  · exact List.not_mem_nil
  · split
    · simp
    · split_ifs <;> simp

/-- What the child executes, and what it has done before. -/
theorem execv_mem_startChild {sys : WaludSystem} {unit : UnitService} {path path' : List UInt8}
    {argv argv' : List (Option (List UInt8))}
    (h : .execv path' argv' ∈ startChild sys unit path argv) :
    (path' = path ∧ argv' = argv) ∧ (applyUnitUser sys unit).2 = true ∧
      (applyUnitUser sys unit).1 ++ [.execv path argv] <+: startChild sys unit path argv := by
  have hbefore := execv_notMem_applyUnitUser sys unit path' argv'
  rw [startChild] at h ⊢
  generalize applyUnitUser sys unit = applied at *
  obtain ⟨events, ok⟩ := applied
  dsimp only at h hbefore ⊢
  split_ifs at h ⊢ with hok hreturns
  · simp [hbefore] at h
  · have hcall : path' = path ∧ argv' = argv := by simpa [hbefore] using h
    exact ⟨hcall, Bool.of_not_eq_false hok, ⟨[.exit 127], by simp⟩⟩
  · have hcall : path' = path ∧ argv' = argv := by simpa [hbefore] using h
    exact ⟨hcall, Bool.of_not_eq_false hok, List.prefix_refl _⟩

/-- What has happened when `walud` executes a program. It says in which order the file was read,
checked and obeyed, and that nothing was executed before. -/
structure Executes (sys : WaludSystem) (argv : List (List UInt8)) (path : List UInt8)
    (slots : List (Option (List UInt8))) (file : List UInt8) (unit : UnitService) : Prop where
  /-- `start` was the command -/
  command : ∃ name, argv = [name, lit "start", file]
  /-- the file parsed -/
  parsed : parseUnitFile file (sys.fopen file) = .ok unit
  /-- the unit was accepted -/
  accepted : validateUnit unit = .ok ()
  /-- the path is absolute -/
  absolute : path.head? = some 0x2F
  /-- and in one piece -/
  noBlank : 0x20 ∉ path ∧ 0x09 ∉ path
  /-- the vector begins with the path and ends with `NULL`, within 32 slots -/
  vector : ∃ args : List (List UInt8),
    slots = some path :: args.map some ++ [none] ∧ slots.length ≤ 32
  /-- the child is the user of the unit, and executes the program next -/
  user : unit.user ≠ [] → unit.user ≠ lit "root" → ∃ pw events, Becomes sys unit.user pw events ∧
    events ++ [.execv path slots] <+: (waludMain sys argv).child

/-- A program is executed for a unit that was parsed and accepted. -/
theorem startUnit_of_execv {sys : WaludSystem} {argv : List (List UInt8)} {path : List UInt8}
    {slots : List (Option (List UInt8))} (h : .execv path slots ∈ (waludMain sys argv).child) :
    ∃ name file unit, argv = [name, lit "start", file] ∧
      parseUnitFile file (sys.fopen file) = .ok unit ∧ validateUnit unit = .ok () ∧
      waludMain sys argv = startUnit sys unit := by
  -- without a child there is no `execv`
  have hnone : ∀ (events : List WaludEvent) (status : ℕ),
      .execv path slots ∉ (WaludRun.mk events [] status).child := fun _ _ => List.not_mem_nil
  rcases argv with _ | ⟨name, _ | ⟨command, _ | ⟨file, _ | ⟨_, _⟩⟩⟩⟩
  · exact absurd h (hnone _ _)
  · exact absurd h (hnone _ _)
  · exact absurd h (hnone _ _)
  · rw [waludMain] at h ⊢
    cases hparse : parseUnitFile file (sys.fopen file) with
    | error complaint =>
      rw [hparse] at h
      exact absurd h (hnone _ _)
    | ok unit =>
      rw [hparse] at h
      dsimp only at h ⊢
      rw [mainCommand] at h ⊢
      split_ifs at h ⊢ with hvalidate hshow hstart
      · cases hvalid : validateUnit unit with
        | error complaint => rw [hvalid] at h; exact absurd h (hnone _ _)
        | ok => rw [hvalid] at h; exact absurd h (hnone _ _)
      · exact absurd h (hnone _ _)
      · cases hvalid : validateUnit unit with
        | error complaint => rw [hvalid] at h; exact absurd h (hnone _ _)
        | ok => exact ⟨name, file, unit, by rw [hstart], hparse, hvalid, rfl⟩
      · exact absurd h (hnone _ _)
  · exact absurd h (hnone _ _)

/-- The program is the first token, and the tokens are its arguments. -/
theorem startUnit_execv {sys : WaludSystem} {unit : UnitService} {path : List UInt8}
    {slots : List (Option (List UInt8))} (h : .execv path slots ∈ (startUnit sys unit).child) :
    ∃ args, splitExecStart (snprintf 256 unit.execStart) 32 = path :: args ∧
      slots = argvSlots (path :: args) ∧ (applyUnitUser sys unit).2 = true ∧
      (applyUnitUser sys unit).1 ++ [.execv path slots] <+: (startUnit sys unit).child := by
  rw [startUnit] at h ⊢
  cases hsplit : splitExecStart (snprintf 256 unit.execStart) 32 with
  | nil =>
    rw [hsplit] at h
    exact absurd h List.not_mem_nil
  | cons path' args =>
    rw [hsplit] at h
    dsimp only at h ⊢
    split_ifs at h ⊢ with hfork
    · exact absurd h List.not_mem_nil
    · obtain ⟨⟨rfl, rfl⟩, hok, hprefix⟩ := execv_mem_startChild h
      exact ⟨args, rfl, rfl, hok, hprefix⟩

/-- A complaint is no execution. -/
theorem parseUnitFile_complaint {file path : List UInt8} {content : Option (List UInt8)}
    {slots : List (Option (List UInt8))} :
    parseUnitFile file content ≠ .error (.execv path slots) := by
  cases content with
  | none => simp [parseUnitFile]
  | some content =>
    rw [parseUnitFile]
    cases parseUnitLoop 0 unitStart (fgets 512 content) with
    | error lineNo => simp [Except.mapError]
    | ok unit => simp [Except.mapError]

theorem validateUnit_complaint {unit : UnitService} {path : List UInt8}
    {slots : List (Option (List UInt8))} : validateUnit unit ≠ .error (.execv path slots) := by
  rw [validateUnit]
  split_ifs <;> simp

theorem execv_notMem_startParent (status : Option WaitStatus) (path : List UInt8)
    (slots : List (Option (List UInt8))) : .execv path slots ∉ (startParent status).1 := by
  rcases status with _ | (ec | sig | _)
  · simp [startParent]
  · rw [startParent]
    split_ifs <;> simp
  · simp [startParent]
  · simp [startParent]

theorem execv_notMem_startUnit (sys : WaludSystem) (unit : UnitService) (path : List UInt8)
    (slots : List (Option (List UInt8))) : .execv path slots ∉ (startUnit sys unit).parent := by
  rw [startUnit]
  split
  · simp
  · split_ifs
    · simp
    · exact execv_notMem_startParent _ path slots

/-- The parent executes nothing. -/
theorem execv_notMem_parent (sys : WaludSystem) (argv : List (List UInt8)) (path : List UInt8)
    (slots : List (Option (List UInt8))) : .execv path slots ∉ (waludMain sys argv).parent := by
  rcases argv with _ | ⟨name, _ | ⟨command, _ | ⟨file, _ | ⟨_, _⟩⟩⟩⟩
  · simp [waludMain, waludUsage]
  · simp [waludMain, waludUsage]
  · simp [waludMain, waludUsage]
  · rw [waludMain]
    cases hparse : parseUnitFile file (sys.fopen file) with
    | error complaint =>
      intro h
      rw [← List.mem_singleton.mp h] at hparse
      exact parseUnitFile_complaint hparse
    | ok unit =>
      dsimp only
      cases hvalid : validateUnit unit with
      | error complaint =>
        rw [mainCommand, hvalid]
        have hcomplaint : complaint ≠ .execv path slots := by
          rintro rfl
          exact validateUnit_complaint hvalid
        split_ifs <;> simp [printUnit, waludUsage, hcomplaint.symm]
      | ok =>
        rw [mainCommand, hvalid]
        split_ifs
        · simp
        · simp [printUnit]
        · exact execv_notMem_startUnit sys unit path slots
        · simp [waludUsage]
  · simp [waludMain, waludUsage]

/-- **`execv`**: what must have happened before. Whatever the arguments and the files are, `walud`
executes only what a unit says that it has read and accepted, and as the user it names, if it
names one. -/
theorem walud_start_execv {sys : WaludSystem} {argv : List (List UInt8)} {path : List UInt8}
    {slots : List (Option (List UInt8))}
    (h : .execv path slots ∈ (waludMain sys argv).parent ++ (waludMain sys argv).child) :
    ∃ file unit, Executes sys argv path slots file unit := by
  have hchild := (List.mem_append.mp h).resolve_left (execv_notMem_parent sys argv path slots)
  obtain ⟨name, file, unit, hargv, hparse, haccept, hrun⟩ := startUnit_of_execv hchild
  rw [hrun] at hchild
  obtain ⟨args, hsplit, hslots, hok, hprefix⟩ := startUnit_execv hchild
  -- the copy begins with the slash that was checked
  have hfirst : (snprintf 256 unit.execStart).head? = some 0x2F := by
    rw [snprintf, List.head?_take, if_neg (by decide)]
    exact validateUnit_ok haccept
  obtain ⟨habsolute, hclean, hlen⟩ := splitExecStart_absolute hfirst hsplit
  refine ⟨file, unit, ⟨name, hargv⟩, hparse, haccept, habsolute, hclean, ⟨args, hslots, ?_⟩, ?_⟩
  · rw [hslots, argvSlots, List.length_append, List.length_map, List.length_cons,
      List.length_singleton]
    omega
  · intro hne hroot
    obtain ⟨pw, hbecomes⟩ := applyUnitUser_ok hok ⟨hne, hroot⟩
    rw [hrun]
    exact ⟨pw, _, hbecomes, hprefix⟩

/-- A system with a user `web`, where everything succeeds. -/
def webSystem (file : List UInt8) : WaludSystem where
  fopen _ := some file
  fork := true
  getpwnam name := if name = lit "web" then some ⟨33, 33⟩ else none
  setgid _ := true
  setuid _ := true
  execvReturns _ _ := false
  waitpid _ := some (.exited 0)

/-- A unit of that user. -/
def webUnit : List UInt8 :=
  lit "[Unit]\nDescription=Web\n[Service]\nUser=web\nExecStart=/bin/www -p 80\n"

theorem webUnit_execv :
    ∃ file unit, Executes (webSystem webUnit) [lit "walud", lit "start", lit "web.service"]
      (lit "/bin/www") [some (lit "/bin/www"), some (lit "-p"), some (lit "80"), none] file unit :=
  walud_start_execv (by decide +kernel)

end WaluOs
