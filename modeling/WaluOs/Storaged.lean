import Mathlib.Data.List.Nodup
import WaluOs.Userland

/-!
# The storage gate

`storaged format` prints an approval or a reason to deny it; it never touches the device.
Its options are read from left to right, an option that takes a value takes the next word
whatever that is, and a later option overrides an earlier one: `FormatOption` is that
syntax, and `parseFormatLoop_iff` says that the parser reads it and nothing else.

The two checks of the system (is it a block device, is it mounted) are parameters, and so
are the commands that `storaged probe` runs.
-/

namespace WaluOs

open CStrings

/-! ## The program -/

/-- A call of `audit_event`, with its four strings. -/
structure AuditEvent : Type where
  /-- `op` -/
  op : List UInt8
  /-- `device` -/
  device : List UInt8
  /-- `result` -/
  result : List UInt8
  /-- `detail` -/
  detail : List UInt8
  deriving DecidableEq, Repr

/-- What `storaged` has done when it exits: all that a caller, a log reader or an auditor can
learn of the run. -/
structure StoragedExit : Type where
  /-- the exit status -/
  status : ℕ
  /-- what `puts` and `printf` have printed, call by call -/
  stdout : List (List UInt8)
  /-- the calls of `log_info` and `log_error` -/
  log : List LogLine
  /-- the calls of `audit_event` -/
  audit : List AuditEvent
  deriving DecidableEq, Repr

/-- What the system answers. No run asks the same question twice, so the answers are functions. -/
structure StorageSystem : Type where
  /-- `is_block_device` -/
  isBlockDevice : List UInt8 → Bool
  /-- `is_device_mounted` -/
  isDeviceMounted : List UInt8 → Bool
  /-- the output of a command, if `popen` can run it -/
  popen : List UInt8 → Option (List UInt8)

/-- `format_args_t`, with the pointers that were not set as `none`. -/
structure FormatArgs : Type where
  /-- `device` -/
  device : Option (List UInt8)
  /-- `dry_run` -/
  dryRun : Bool
  /-- `force` -/
  force : Bool
  /-- `yes` -/
  yes : Bool
  /-- `confirm` -/
  confirm : Option (List UInt8)
  deriving DecidableEq, Repr

/-- `usage` -/
def storagedUsage : List (List UInt8) :=
  [putsLine "Usage:",
    putsLine "  storaged probe --device <path>",
    putsLine "  storaged format --device <path> [--dry-run] [--force --confirm <path> --yes]",
    putsLine "Safety:",
    putsLine "  destructive operations require --force, --confirm <exact-device>, and --yes"]

/-- The three options of `parse_format_args` that take no value. -/
def parseFormatFlag (args : FormatArgs) (arg : List UInt8) : Option FormatArgs :=
  if arg = lit "--dry-run" then some { args with dryRun := true }
  else if arg = lit "--force" then some { args with force := true }
  else if arg = lit "--yes" then some { args with yes := true }
  else none

/-- The loop of `parse_format_args`; an option that takes a value is refused at the end. -/
def parseFormatLoop : FormatArgs → List (List UInt8) → Option FormatArgs
  | args, [] => some args
  | args, [arg] => parseFormatFlag args arg
  | args, arg :: value :: rest =>
    if arg = lit "--device" then parseFormatLoop { args with device := some value } rest
    else
      match parseFormatFlag args arg with
      | some args => parseFormatLoop args (value :: rest)
      | none =>
        if arg = lit "--confirm" then parseFormatLoop { args with confirm := some value } rest
        else none

/-- `parse_format_args`: `none` for its 1, else the device and all arguments. -/
def parseFormatArgs (argv : List (List UInt8)) : Option (List UInt8 × FormatArgs) :=
  match parseFormatLoop ⟨none, false, false, false, none⟩ argv with
  | none => none
  | some args => args.device.map fun device => (device, args)

/-- `is_valid_block_path` -/
def isValidBlockPath (path : List UInt8) : Bool :=
  path.take 5 = lit "/dev/" ∧ 5 < path.length

/-- `yes` or `no` -/
def yesNo (b : Bool) : List UInt8 := if b then lit "yes" else lit "no"

/-- What `print_probe_info` makes of a command's output: its first line, if there is any. -/
def probeLine (label : String) (output : Option (List UInt8)) : List UInt8 :=
  match (output.getD []) |> fgets 256 |>.head? with
  | some buf =>
    lit label ++ (cstr buf).takeWhile (fun b => b ≠ 0x0D ∧ b ≠ 0x0A) ++ [0x0A]
  | none => lit label ++ putsLine "unknown"

/-- `print_probe_info` -/
def printProbeInfo (sys : StorageSystem) (device : List UInt8) : List (List UInt8) :=
  [lit "device=" ++ device ++ [0x0A],
    lit "block_device=" ++ yesNo (sys.isBlockDevice device) ++ [0x0A],
    lit "mounted=" ++ yesNo (sys.isDeviceMounted device) ++ [0x0A],
    probeLine "size=" (sys.popen (snprintf 512
      (lit "lsblk -ndo SIZE " ++ device ++ lit " 2>/dev/null"))),
    probeLine "fstype=" (sys.popen (snprintf 512
      (lit "blkid -o value -s TYPE " ++ device ++ lit " 2>/dev/null")))]

/-- An event of `storaged`. -/
def auditEvent (op : String) (device : List UInt8) (result detail : String) : AuditEvent :=
  ⟨lit op, device, lit result, lit detail⟩

/-- `command_probe` -/
def commandProbe (sys : StorageSystem) (device : List UInt8) : StoragedExit :=
  if !isValidBlockPath device then
    ⟨2, [], [logError "storaged" "invalid device path for probe"],
      [auditEvent "probe" device "deny" "invalid-path"]⟩
  else
    ⟨0, printProbeInfo sys device, [], [auditEvent "probe" device "ok" "reported"]⟩

/-- `command_format` -/
def commandFormat (sys : StorageSystem) (device : List UInt8) (args : FormatArgs) : StoragedExit :=
  if !isValidBlockPath device then
    ⟨2, [], [logError "storaged" "device path must be under /dev/"],
      [auditEvent "format" device "deny" "invalid-path"]⟩
  else if !sys.isBlockDevice device then
    ⟨2, [], [logError "storaged" "device path is not a block device"],
      [auditEvent "format" device "deny" "not-block-device"]⟩
  else if args.dryRun then
    ⟨0, [lit "dry-run: mkfs.ext4 " ++ device ++ [0x0A],
        lit "dry-run: mounted=" ++ yesNo (sys.isDeviceMounted device) ++ [0x0A]], [],
      [auditEvent "format" device "dry-run" "policy-check-only"]⟩
  else if sys.isDeviceMounted device then
    ⟨4, [], [logError "storaged" "refusing to format a mounted device"],
      [auditEvent "format" device "deny" "mounted"]⟩
  else if !args.force ∨ !args.yes ∨ args.confirm ≠ some device then
    ⟨3, storagedUsage,
      [logError "storaged" "missing mandatory destructive-operation confirmation flags"],
      [auditEvent "format" device "deny" "missing-force-confirm-yes"]⟩
  else
    ⟨0, [lit "approved: mkfs.ext4 " ++ device ++ [0x0A]],
      [logInfo "storaged" "format request approved by force+confirm+yes policy"],
      [auditEvent "format" device "approved" "force-confirm-yes"]⟩

/-- `main` when it prints its usage. -/
def storagedUsageExit : StoragedExit := ⟨1, storagedUsage, [], []⟩

/-- The `probe` branch of `main`; `words` are the arguments behind it. -/
def mainProbe (sys : StorageSystem) (words : List (List UInt8)) : StoragedExit :=
  match words with
  | [option, device] =>
    if option = lit "--device" then commandProbe sys device else storagedUsageExit
  | _ => storagedUsageExit

/-- The `format` branch of `main`. -/
def mainFormat (sys : StorageSystem) (words : List (List UInt8)) : StoragedExit :=
  match parseFormatArgs words with
  | none => storagedUsageExit
  | some (device, args) => commandFormat sys device args

/-- `main` -/
def storagedMain (sys : StorageSystem) (argv : List (List UInt8)) : StoragedExit :=
  match argv with
  | _ :: command :: words =>
    if command = lit "probe" then mainProbe sys words
    else if command = lit "format" then mainFormat sys words
    else storagedUsageExit
  | _ => storagedUsageExit

/-! ## The options -/

/-- An option of `storaged format`, with its value. A command line is a list of these, in any
order and with repetitions. -/
inductive FormatOption : Type where
  /-- `--device` -/
  | device : List UInt8 → FormatOption
  /-- `--dry-run` -/
  | dryRun : FormatOption
  /-- `--force` -/
  | force : FormatOption
  /-- `--yes` -/
  | yes : FormatOption
  /-- `--confirm` -/
  | confirm : List UInt8 → FormatOption
  deriving DecidableEq, Repr

/-- How an option is written. -/
def FormatOption.spelling : FormatOption → List (List UInt8)
  | .device path => [lit "--device", path]
  | .dryRun => [lit "--dry-run"]
  | .force => [lit "--force"]
  | .yes => [lit "--yes"]
  | .confirm path => [lit "--confirm", path]

/-- The words of a command line. Each option is spelled in one way, so every command line that is
accepted is one of these. -/
def spellOptions (opts : List FormatOption) : List (List UInt8) :=
  opts.flatMap FormatOption.spelling

/-- What an option does. -/
def FormatOption.apply (args : FormatArgs) : FormatOption → FormatArgs
  | .device path => { args with device := some path }
  | .dryRun => { args with dryRun := true }
  | .force => { args with force := true }
  | .yes => { args with yes := true }
  | .confirm path => { args with confirm := some path }

/-- The value of `--device`. -/
def FormatOption.devicePath : FormatOption → Option (List UInt8)
  | .device path => some path
  | _ => none

/-- The value of `--confirm`. -/
def FormatOption.confirmPath : FormatOption → Option (List UInt8)
  | .confirm path => some path
  | _ => none

/-- The value of the last `--device`. -/
def lastDevice (opts : List FormatOption) : Option (List UInt8) :=
  (opts.filterMap FormatOption.devicePath).getLast?

/-- The value of the last `--confirm`. -/
def lastConfirm (opts : List FormatOption) : Option (List UInt8) :=
  (opts.filterMap FormatOption.confirmPath).getLast?

/-- An option that takes no value. -/
def FormatOption.IsFlag (opt : FormatOption) : Prop := opt = .dryRun ∨ opt = .force ∨ opt = .yes

theorem parseFormatFlag_iff {args args' : FormatArgs} {arg : List UInt8} :
    parseFormatFlag args arg = some args' ↔
      ∃ opt : FormatOption, opt.IsFlag ∧ opt.spelling = [arg] ∧ opt.apply args = args' := by
  rw [parseFormatFlag]
  constructor
  · intro h
    split_ifs at h with hdry hforce hyes
    · exact ⟨.dryRun, Or.inl rfl, congrArg ([·]) hdry.symm, Option.some.inj h⟩
    · exact ⟨.force, Or.inr (Or.inl rfl), congrArg ([·]) hforce.symm, Option.some.inj h⟩
    · exact ⟨.yes, Or.inr (Or.inr rfl), congrArg ([·]) hyes.symm, Option.some.inj h⟩
  · rintro ⟨opt, rfl | rfl | rfl, hspell, rfl⟩ <;> obtain rfl := List.singleton_inj.mp hspell
    · rw [if_pos rfl]
      rfl
    · rw [if_neg (by decide), if_pos rfl]
      rfl
    · rw [if_neg (by decide), if_neg (by decide), if_pos rfl]
      rfl

/-- A flag is not an option with a value. -/
theorem FormatOption.IsFlag.ne_device {opt : FormatOption} (h : opt.IsFlag) {arg : List UInt8}
    (hspell : opt.spelling = [arg]) : arg ≠ lit "--device" := by
  rcases h with rfl | rfl | rfl <;> obtain rfl := List.singleton_inj.mp hspell <;> decide

/-- One option, and more words. -/
theorem parseFormatLoop_spelling (args : FormatArgs) (opt : FormatOption)
    (rest : List (List UInt8)) :
    parseFormatLoop args (opt.spelling ++ rest) = parseFormatLoop (opt.apply args) rest := by
  have hflag : ∀ arg, opt.IsFlag → opt.spelling = [arg] →
      parseFormatLoop args (arg :: rest) = parseFormatLoop (opt.apply args) rest := by
    intro arg hopt hspell
    have hparse : parseFormatFlag args arg = some (opt.apply args) :=
      parseFormatFlag_iff.mpr ⟨opt, hopt, hspell, rfl⟩
    cases rest with
    | nil => exact hparse
    | cons value rest =>
      rw [parseFormatLoop, if_neg (hopt.ne_device hspell), hparse]
  cases opt with
  | device path => rfl
  | dryRun => exact hflag _ (Or.inl rfl) rfl
  | force => exact hflag _ (Or.inr (Or.inl rfl)) rfl
  | yes => exact hflag _ (Or.inr (Or.inr rfl)) rfl
  | confirm path => rfl

/-- **The parser reads options**, and nothing else. The induction is on the words, and an option
takes one or two of them. -/
theorem parseFormatLoop_iff (words : List (List UInt8)) :
    ∀ args args' : FormatArgs, parseFormatLoop args words = some args' ↔
      ∃ opts, spellOptions opts = words ∧ opts.foldl FormatOption.apply args = args' := by
  have hcomplete : ∀ (opts : List FormatOption) (args : FormatArgs),
      parseFormatLoop args (spellOptions opts) = some (opts.foldl FormatOption.apply args) := by
    intro opts
    induction opts with
    | nil => exact fun _ => rfl
    | cons opt opts ih => exact fun args => (parseFormatLoop_spelling args opt _).trans (ih _)
  intro args args'
  constructor
  · intro h
    induction args, words using parseFormatLoop.induct with
    | case1 args => exact ⟨[], rfl, Option.some.inj h⟩
    | case2 args arg =>
      obtain ⟨opt, -, hspell, happly⟩ := parseFormatFlag_iff.mp h
      exact ⟨[opt], (List.append_nil _).trans hspell, happly⟩
    | case3 args value rest ih =>
      rw [parseFormatLoop, if_pos rfl] at h
      obtain ⟨opts, hspell, happly⟩ := ih h
      refine ⟨.device value :: opts, ?_, happly⟩
      rw [← hspell]
      rfl
    | case4 args arg value rest harg args' hflag ih =>
      rw [parseFormatLoop, if_neg harg, hflag] at h
      obtain ⟨opt, -, hword, rfl⟩ := parseFormatFlag_iff.mp hflag
      obtain ⟨opts, hspell, happly⟩ := ih h
      refine ⟨opt :: opts, ?_, happly⟩
      rw [spellOptions, List.flatMap_cons, hword, ← spellOptions, hspell]
      rfl
    | case5 args value rest hne hflag ih =>
      rw [parseFormatLoop, if_neg hne, hflag] at h
      obtain ⟨opts, hspell, happly⟩ := ih h
      refine ⟨.confirm value :: opts, ?_, happly⟩
      rw [← hspell]
      rfl
    | case6 args arg value rest harg hflag hconfirm =>
      rw [parseFormatLoop, if_neg harg, hflag] at h
      dsimp only at h
      rw [if_neg hconfirm] at h
      exact absurd h.symm (Option.some_ne_none _)
  · rintro ⟨opts, rfl, rfl⟩
    exact hcomplete opts args

/-! ## What the options say -/

theorem lastDevice_cons (opt : FormatOption) (opts : List FormatOption) :
    lastDevice (opt :: opts) = (lastDevice opts).or opt.devicePath := by
  cases opt with
  | device path =>
    have hcons : lastDevice (.device path :: opts) =
        (path :: opts.filterMap FormatOption.devicePath).getLast? := rfl
    rw [hcons, List.getLast?_cons, ← lastDevice]
    cases lastDevice opts <;> rfl
  | _ => exact (Option.or_none).symm

theorem lastConfirm_cons (opt : FormatOption) (opts : List FormatOption) :
    lastConfirm (opt :: opts) = (lastConfirm opts).or opt.confirmPath := by
  cases opt with
  | confirm path =>
    have hcons : lastConfirm (.confirm path :: opts) =
        (path :: opts.filterMap FormatOption.confirmPath).getLast? := rfl
    rw [hcons, List.getLast?_cons, ← lastConfirm]
    cases lastConfirm opts <;> rfl
  | _ => exact (Option.or_none).symm

/-- `args'` is `args` after `opts`: flags add up, and of a value the last one counts. -/
structure ReadsOptions (args : FormatArgs) (opts : List FormatOption) (args' : FormatArgs) :
    Prop where
  device : args'.device = (lastDevice opts).or args.device
  dryRun : args'.dryRun = true ↔ args.dryRun = true ∨ .dryRun ∈ opts
  force : args'.force = true ↔ args.force = true ∨ .force ∈ opts
  yes : args'.yes = true ↔ args.yes = true ∨ .yes ∈ opts
  confirm : args'.confirm = (lastConfirm opts).or args.confirm

theorem foldl_apply_reads (opts : List FormatOption) :
    ∀ args : FormatArgs, ReadsOptions args opts (opts.foldl FormatOption.apply args) := by
  induction opts with
  | nil =>
    intro args
    refine ⟨rfl, ?_, ?_, ?_, rfl⟩ <;> simp
  | cons opt opts ih =>
    intro args
    obtain ⟨hdevice, hdry, hforce, hyes, hconfirm⟩ := ih (opt.apply args)
    rw [List.foldl_cons]
    refine ⟨?_, ?_, ?_, ?_, ?_⟩
    · rw [hdevice, lastDevice_cons, Option.or_assoc]
      cases opt <;> rfl
    · rw [hdry, List.mem_cons]
      cases opt <;> simp [FormatOption.apply]
    · rw [hforce, List.mem_cons]
      cases opt <;> simp [FormatOption.apply]
    · rw [hyes, List.mem_cons]
      cases opt <;> simp [FormatOption.apply]
    · rw [hconfirm, lastConfirm_cons, Option.or_assoc]
      cases opt <;> rfl

/-- The arguments before the first option. -/
def noArgs : FormatArgs := ⟨none, false, false, false, none⟩

/-- The whole parser. -/
theorem parseFormatArgs_iff {words : List (List UInt8)} {device : List UInt8} {args : FormatArgs} :
    parseFormatArgs words = some (device, args) ↔
      ∃ opts, spellOptions opts = words ∧ lastDevice opts = some device ∧
        opts.foldl FormatOption.apply noArgs = args := by
  have hdevice : ∀ opts, (opts.foldl FormatOption.apply noArgs).device = lastDevice opts :=
    fun opts => (foldl_apply_reads opts noArgs).device.trans Option.or_none
  rw [parseFormatArgs]
  constructor
  · intro h
    cases hloop : parseFormatLoop noArgs words with
    | none =>
      rw [← noArgs, hloop] at h
      exact absurd h.symm (Option.some_ne_none _)
    | some args' =>
      rw [← noArgs, hloop] at h
      obtain ⟨opts, hspell, rfl⟩ := (parseFormatLoop_iff words _ _).mp hloop
      obtain ⟨d, hd, heq⟩ := Option.map_eq_some_iff.mp h
      obtain ⟨rfl, rfl⟩ := Prod.mk.inj heq
      exact ⟨opts, hspell, (hdevice opts).symm.trans hd, rfl⟩
  · rintro ⟨opts, hspell, hlast, rfl⟩
    have hloop := (parseFormatLoop_iff words noArgs _).mpr ⟨opts, hspell, rfl⟩
    rw [← noArgs, hloop]
    dsimp only
    rw [hdevice, hlast]
    rfl

/-! ## The gate -/

/-- An approval has been printed. The program formats nothing itself; the line it prints is its
permission to do so. -/
def StoragedExit.Approves (e : StoragedExit) : Prop :=
  ∃ text ∈ e.stdout, lit "approved: mkfs.ext4 " <+: text

/-- What it takes to format `device`. The confirmation has to repeat the device, and everything
else has to be asked for by name; nothing is implied by anything else. -/
structure Approvable (sys : StorageSystem) (opts : List FormatOption) (device : List UInt8) :
    Prop where
  /-- the last `--device` -/
  named : lastDevice opts = some device
  /-- a path below `/dev` -/
  path : lit "/dev/" <+: device ∧ 5 < device.length
  /-- reported a block device -/
  block : sys.isBlockDevice device = true
  /-- reported not mounted -/
  unmounted : sys.isDeviceMounted device = false
  /-- no `--dry-run` -/
  real : .dryRun ∉ opts
  /-- `--force` -/
  force : .force ∈ opts
  /-- `--yes` -/
  yes : .yes ∈ opts
  /-- the last `--confirm` -/
  confirm : lastConfirm opts = some device

theorem isValidBlockPath_iff (path : List UInt8) :
    isValidBlockPath path = true ↔ lit "/dev/" <+: path ∧ 5 < path.length := by
  rw [isValidBlockPath, decide_eq_true_iff, List.prefix_iff_eq_take]
  exact and_congr_left fun _ => eq_comm

/-- A text that begins otherwise approves nothing. -/
theorem not_approval {label : String}
    (hlabel : (lit label).head? ≠ none ∧ (lit label).head? ≠ some 0x61)
    (text : List UInt8) : ¬lit "approved: mkfs.ext4 " <+: lit label ++ text := by
  rintro ⟨rest, h⟩
  obtain ⟨hne, hhead⟩ := hlabel
  cases hlit : lit label with
  | nil => exact hne (by rw [hlit]; rfl)
  | cons c tail =>
    rw [hlit] at hhead h
    have hfirst : 0x61 = c := (List.cons.inj h).1
    exact hhead (by rw [← hfirst]; rfl)

theorem silent_denies (status : ℕ) (log : List LogLine) (audit : List AuditEvent) :
    ¬StoragedExit.Approves ⟨status, [], log, audit⟩ := fun ⟨_, htext, _⟩ =>
  absurd htext List.not_mem_nil

theorem storagedUsage_denies (status : ℕ) (log : List LogLine) (audit : List AuditEvent) :
    ¬StoragedExit.Approves ⟨status, storagedUsage, log, audit⟩ := by
  rintro ⟨text, htext, happroves⟩
  have hnone : ∀ text ∈ storagedUsage, ¬lit "approved: mkfs.ext4 " <+: text := by decide +kernel
  exact hnone text htext happroves

theorem probeLine_denies {label : String}
    (hlabel : (lit label).head? ≠ none ∧ (lit label).head? ≠ some 0x61)
    (output : Option (List UInt8)) :
    ¬lit "approved: mkfs.ext4 " <+: probeLine label output := by
  rw [probeLine]
  split
  · rw [List.append_assoc]
    exact not_approval hlabel _
  · exact not_approval hlabel _

theorem commandProbe_denies (sys : StorageSystem) (device : List UInt8) :
    ¬(commandProbe sys device).Approves := by
  rw [commandProbe]
  split
  · exact silent_denies _ _ _
  · rintro ⟨text, htext, happroves⟩
    simp only [printProbeInfo, List.mem_cons, List.not_mem_nil, or_false,
      List.append_assoc] at htext
    rcases htext with rfl | rfl | rfl | rfl | rfl
    · exact not_approval (by decide) _ happroves
    · exact not_approval (by decide) _ happroves
    · exact not_approval (by decide) _ happroves
    · exact probeLine_denies (by decide) _ happroves
    · exact probeLine_denies (by decide) _ happroves

/-- The tests of `command_format`, all passed. They are made one after the other, and the first
that fails is what is reported. -/
structure PassesGate (sys : StorageSystem) (device : List UInt8) (args : FormatArgs) : Prop where
  path : isValidBlockPath device = true
  block : sys.isBlockDevice device = true
  real : args.dryRun = false
  unmounted : sys.isDeviceMounted device = false
  force : args.force = true
  yes : args.yes = true
  confirm : args.confirm = some device

/-- A dry run is no approval. -/
theorem dryRun_denies (device mounted : List UInt8) (log : List LogLine) (audit : List AuditEvent) :
    ¬StoragedExit.Approves ⟨0, [lit "dry-run: mkfs.ext4 " ++ device ++ [0x0A],
      lit "dry-run: mounted=" ++ mounted ++ [0x0A]], log, audit⟩ := by
  rintro ⟨text, htext, happroves⟩
  simp only [List.mem_cons, List.not_mem_nil, or_false, List.append_assoc] at htext
  rcases htext with rfl | rfl
  · exact not_approval (by decide) _ happroves
  · exact not_approval (by decide) _ happroves

/-- **What `command_format` does** when all tests are passed. -/
theorem PassesGate.approves {sys : StorageSystem} {device : List UInt8} {args : FormatArgs}
    (h : PassesGate sys device args) :
    (commandFormat sys device args).Approves ∧ (commandFormat sys device args).status = 0 := by
  obtain ⟨hpath, hblock, hreal, hunmounted, hforce, hyes, hconfirm⟩ := h
  have hprints : lit "approved: mkfs.ext4 " <+: lit "approved: mkfs.ext4 " ++ device ++ [0x0A] := by
    rw [List.append_assoc]
    exact List.prefix_append _ _
  have hconfirmed : ¬((!args.force) = true ∨ (!args.yes) = true ∨ args.confirm ≠ some device) := by
    simp [hforce, hyes, hconfirm]
  rw [commandFormat, hpath, hblock, hreal, hunmounted, if_neg (by decide), if_neg (by decide),
    if_neg (by decide), if_neg (by decide), if_neg hconfirmed]
  exact ⟨⟨_, List.mem_singleton_self _, hprints⟩, rfl⟩

/-- **And when one is not**: nothing is approved, and only a dry run is a success. -/
theorem commandFormat_denies {sys : StorageSystem} {device : List UInt8} {args : FormatArgs}
    (h : ¬PassesGate sys device args) :
    ¬(commandFormat sys device args).Approves ∧
      ((commandFormat sys device args).status = 0 → args.dryRun = true) := by
  rw [commandFormat]
  split_ifs with hpath hblock hdry hmounted hunconfirmed
  · exact ⟨silent_denies _ _ _, fun hzero => hzero.elim⟩
  · exact ⟨silent_denies _ _ _, fun hzero => hzero.elim⟩
  · exact ⟨dryRun_denies _ _ _ _, fun _ => hdry⟩
  · exact ⟨silent_denies _ _ _, fun hzero => hzero.elim⟩
  · exact ⟨storagedUsage_denies _ _ _, fun hzero => hzero.elim⟩
  · rw [not_or, not_or, not_not] at hunconfirmed
    obtain ⟨hforce, hyes, hconfirm⟩ := hunconfirmed
    refine absurd ⟨?_, ?_, ?_, ?_, ?_, ?_, hconfirm⟩ h
    · simpa using hpath
    · simpa using hblock
    · simpa using hdry
    · simpa using hmounted
    · simpa using hforce
    · simpa using hyes

/-- The tests are those on the options. -/
theorem approvable_iff (sys : StorageSystem) (opts : List FormatOption) (device : List UInt8) :
    Approvable sys opts device ↔ lastDevice opts = some device ∧
      PassesGate sys device (opts.foldl FormatOption.apply noArgs) := by
  obtain ⟨-, hdry, hforce, hyes, hconfirm⟩ := foldl_apply_reads opts noArgs
  rw [or_iff_right (by decide)] at hdry hforce hyes
  rw [noArgs, Option.or_none, ← noArgs] at hconfirm
  constructor
  · intro h
    refine ⟨h.named, (isValidBlockPath_iff device).mpr h.path, h.block, ?_, h.unmounted,
      hforce.mpr h.force, hyes.mpr h.yes, hconfirm.trans h.confirm⟩
    exact Bool.eq_false_iff.mpr (mt hdry.mp h.real)
  · rintro ⟨hnamed, h⟩
    refine ⟨hnamed, (isValidBlockPath_iff device).mp h.path, h.block, h.unmounted, ?_,
      hforce.mp h.force, hyes.mp h.yes, hconfirm.symm.trans h.confirm⟩
    exact mt hdry.mpr (Bool.eq_false_iff.mp h.real)

theorem storagedMain_eq_mainFormat (sys : StorageSystem) (name : List UInt8)
    (words : List (List UInt8)) :
    storagedMain sys (name :: lit "format" :: words) = mainFormat sys words := rfl

/-- A command line that the parser refuses. -/
theorem mainFormat_refused (sys : StorageSystem) {words : List (List UInt8)}
    (h : parseFormatArgs words = none) : mainFormat sys words = storagedUsageExit := by
  rw [mainFormat, h]

/-- A command line of options. -/
theorem mainFormat_options (sys : StorageSystem) {opts : List FormatOption} {device : List UInt8}
    (h : lastDevice opts = some device) :
    mainFormat sys (spellOptions opts) =
      commandFormat sys device (opts.foldl FormatOption.apply noArgs) := by
  have hparse : parseFormatArgs (spellOptions opts) =
      some (device, opts.foldl FormatOption.apply noArgs) :=
    parseFormatArgs_iff.mpr ⟨opts, rfl, h, rfl⟩
  rw [mainFormat, hparse]

theorem mainProbe_denies (sys : StorageSystem) (words : List (List UInt8)) :
    ¬(mainProbe sys words).Approves := by
  unfold mainProbe
  split
  · split_ifs
    · exact commandProbe_denies _ _
    · exact storagedUsage_denies _ _ _
  · exact storagedUsage_denies _ _ _

/-- Other commands approve nothing. -/
theorem storagedMain_format_of_approves {sys : StorageSystem} {argv : List (List UInt8)}
    (h : (storagedMain sys argv).Approves) :
    ∃ name words, argv = name :: lit "format" :: words := by
  rcases argv with _ | ⟨name, _ | ⟨command, words⟩⟩
  · exact absurd h (storagedUsage_denies _ _ _)
  · exact absurd h (storagedUsage_denies _ _ _)
  · rw [storagedMain] at h
    split_ifs at h with hprobe hformat
    · exact absurd h (mainProbe_denies _ _)
    · exact ⟨name, words, by rw [hformat]⟩
    · exact absurd h (storagedUsage_denies _ _ _)

/-- A command line that approves is one of options that are approvable. -/
theorem approves_format_iff (sys : StorageSystem) (name : List UInt8) (words : List (List UInt8)) :
    (storagedMain sys (name :: lit "format" :: words)).Approves ↔
      ∃ opts device, spellOptions opts = words ∧ Approvable sys opts device := by
  constructor
  · intro h
    cases hparse : parseFormatArgs words with
    | none =>
      rw [storagedMain_eq_mainFormat, mainFormat_refused sys hparse] at h
      exact absurd h (storagedUsage_denies _ _ _)
    | some parsed =>
      obtain ⟨opts, hspell, hnamed, -⟩ := parseFormatArgs_iff.mp hparse
      rw [storagedMain_eq_mainFormat, ← hspell, mainFormat_options sys hnamed] at h
      have hgate := not_not.mp fun hgate => (commandFormat_denies hgate).1 h
      exact ⟨opts, _, hspell, (approvable_iff sys opts _).mpr ⟨hnamed, hgate⟩⟩
  · rintro ⟨opts, device, rfl, happrovable⟩
    obtain ⟨hnamed, hgate⟩ := (approvable_iff sys opts device).mp happrovable
    rw [storagedMain_eq_mainFormat, mainFormat_options sys hnamed]
    exact hgate.approves.1

/-- Success is an approval or a dry run. -/
theorem storagedMain_success (sys : StorageSystem) (name : List UInt8) (words : List (List UInt8))
    (h : (storagedMain sys (name :: lit "format" :: words)).status = 0) :
    (storagedMain sys (name :: lit "format" :: words)).Approves ∨
      ∃ opts, spellOptions opts = words ∧ .dryRun ∈ opts := by
  cases hparse : parseFormatArgs words with
  | none =>
    rw [storagedMain_eq_mainFormat, mainFormat_refused sys hparse] at h
    exact absurd h (Nat.succ_ne_zero 0)
  | some parsed =>
    obtain ⟨opts, rfl, hnamed, -⟩ := parseFormatArgs_iff.mp hparse
    rw [storagedMain_eq_mainFormat, mainFormat_options sys hnamed] at h ⊢
    by_cases hgate : PassesGate sys parsed.1 (opts.foldl FormatOption.apply noArgs)
    · exact Or.inl hgate.approves.1
    · have hdry := (foldl_apply_reads opts noArgs).dryRun.mp ((commandFormat_denies hgate).2 h)
      exact Or.inr ⟨opts, rfl, hdry.resolve_left (by decide)⟩

/-! ## The order of the options -/

/-- The name of an option, as it is typed. -/
def FormatOption.name : FormatOption → List UInt8
  | .device _ => lit "--device"
  | .dryRun => lit "--dry-run"
  | .force => lit "--force"
  | .yes => lit "--yes"
  | .confirm _ => lit "--confirm"

/-- Options with different names do not interfere. -/
theorem FormatOption.apply_comm {opt opt' : FormatOption} (h : opt.name ≠ opt'.name)
    (args : FormatArgs) : opt'.apply (opt.apply args) = opt.apply (opt'.apply args) := by
  cases opt <;> cases opt' <;> first | rfl | exact absurd rfl h

/-- Options that occur at most once can be given in any order. -/
theorem parseFormatArgs_perm {opts opts' : List FormatOption} (h : opts.Perm opts')
    (honce : (opts.map FormatOption.name).Nodup) :
    parseFormatArgs (spellOptions opts) = parseFormatArgs (spellOptions opts') := by
  have hloop : ∀ opts : List FormatOption, parseFormatLoop noArgs (spellOptions opts) =
      some (opts.foldl FormatOption.apply noArgs) := fun opts =>
    (parseFormatLoop_iff _ _ _).mpr ⟨opts, rfl, rfl⟩
  have hfold : opts.foldl FormatOption.apply noArgs = opts'.foldl FormatOption.apply noArgs := by
    refine h.foldl_eq' (fun opt hopt opt' hopt' args => ?_) noArgs
    by_cases hname : opt.name = opt'.name
    · rw [List.inj_on_of_nodup_map honce hopt hopt' hname]
    · exact FormatOption.apply_comm hname args
  rw [parseFormatArgs, parseFormatArgs, ← noArgs, hloop, hloop, hfold]

/-! ## The theorem -/

/-- **The gate**: what is approved, what succeeds, and that the order of the options does not
matter. It holds for every list of words, also for those that are no options. -/
theorem storaged_gate (sys : StorageSystem) :
    (∀ argv, (storagedMain sys argv).Approves ↔ ∃ name opts device,
        argv = name :: lit "format" :: spellOptions opts ∧ Approvable sys opts device) ∧
      (∀ argv, (storagedMain sys argv).Approves → (storagedMain sys argv).status = 0) ∧
      (∀ name words, (storagedMain sys (name :: lit "format" :: words)).status = 0 →
        (storagedMain sys (name :: lit "format" :: words)).Approves ∨
          ∃ opts, spellOptions opts = words ∧ .dryRun ∈ opts) ∧
      ∀ name (opts opts' : List FormatOption), opts.Perm opts' →
        (opts.map FormatOption.name).Nodup →
        storagedMain sys (name :: lit "format" :: spellOptions opts) =
          storagedMain sys (name :: lit "format" :: spellOptions opts') := by
  refine ⟨fun argv => ⟨fun h => ?_, ?_⟩, fun argv h => ?_, storagedMain_success sys, ?_⟩
  · obtain ⟨name, words, rfl⟩ := storagedMain_format_of_approves h
    obtain ⟨opts, device, rfl, happrovable⟩ := (approves_format_iff sys name words).mp h
    exact ⟨name, opts, device, rfl, happrovable⟩
  · rintro ⟨name, opts, device, rfl, happrovable⟩
    exact (approves_format_iff sys name _).mpr ⟨opts, device, rfl, happrovable⟩
  · obtain ⟨name, words, rfl⟩ := storagedMain_format_of_approves h
    obtain ⟨opts, device, rfl, happrovable⟩ := (approves_format_iff sys name words).mp h
    obtain ⟨hnamed, hgate⟩ := (approvable_iff sys opts device).mp happrovable
    rw [storagedMain_eq_mainFormat, mainFormat_options sys hnamed]
    exact hgate.approves.2
  · intro name opts opts' hperm honce
    rw [storagedMain_eq_mainFormat, storagedMain_eq_mainFormat, mainFormat, mainFormat,
      parseFormatArgs_perm hperm honce]

/-- A flag that is eaten as the value of `--confirm` confirms nothing. -/
example :
    (storagedMain ⟨fun _ => true, fun _ => false, fun _ => none⟩
      [lit "storaged", lit "format", lit "--device", lit "/dev/sda", lit "--yes", lit "--confirm",
        lit "--force"]).status = 3 := by
  decide

end WaluOs
