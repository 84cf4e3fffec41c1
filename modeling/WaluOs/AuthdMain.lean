import Mathlib.Algebra.Group.Nat.Defs
import WaluOs.Authd
import WaluOs.FilePieces
import WaluOs.Userland

/-!
# The commands of `authd`

A command line of `authd verify` is a list of options, in any order, of which the last of a kind
counts; nothing else is accepted, and what is accepted is decided by the line on the standard
input and the shadow file (`authdMain_verify_iff`).

`authd policy-check` has five rules and returns the number of the first that is broken. From the
standard input it reads 511 bytes of a password at most (`authdMain_policyCheck`).
-/

namespace WaluOs

open CStrings

/-! ## The program -/

/-- What `authd` has done when it exits. All that others can see of it is here. -/
structure AuthdExit : Type where
  /-- the exit status -/
  status : ℕ
  /-- what `puts` has printed -/
  stdout : List (List UInt8)
  /-- the calls of `log_info` and `log_error` -/
  log : List LogLine
  deriving DecidableEq, Repr

/-- What `authd` finds. `crypt` is a function of the C library, and the model takes it as it
comes: no result rests on what it computes. -/
structure AuthdSystem : Type where
  /-- `crypt` -/
  crypt : List UInt8 → List UInt8 → Option (List UInt8)
  /-- the content of a file, if it can be opened -/
  file : List UInt8 → Option (List UInt8)
  /-- the standard input -/
  stdin : List UInt8

/-- `password_policy_t` -/
structure PasswordPolicy : Type where
  /-- `min_len` -/
  minLen : ℤ
  /-- `require_upper` -/
  requireUpper : Bool
  /-- `require_lower` -/
  requireLower : Bool
  /-- `require_digit` -/
  requireDigit : Bool
  /-- `require_symbol` -/
  requireSymbol : Bool

/-- The four flags of `check_policy`. -/
structure PasswordClasses : Type where
  /-- `has_upper` -/
  hasUpper : Bool
  /-- `has_lower` -/
  hasLower : Bool
  /-- `has_digit` -/
  hasDigit : Bool
  /-- `has_symbol` -/
  hasSymbol : Bool

/-- `isupper`, in the C locale. -/
def isupper (c : UInt8) : Bool := 0x41 ≤ c ∧ c ≤ 0x5A

/-- `islower`, in the C locale. -/
def islower (c : UInt8) : Bool := 0x61 ≤ c ∧ c ≤ 0x7A

/-- `isdigit` -/
def isdigit (c : UInt8) : Bool := 0x30 ≤ c ∧ c ≤ 0x39

/-- The body of the loop of `check_policy`. -/
def classifyByte (has : PasswordClasses) (c : UInt8) : PasswordClasses :=
  if isupper c then { has with hasUpper := true }
  else if islower c then { has with hasLower := true }
  else if isdigit c then { has with hasDigit := true }
  else { has with hasSymbol := true }

/-- The conversion of a `size_t` to `int`. -/
def sizeToInt (n : ℕ) : ℤ := (n : ℤ).bmod (2 ^ 32)

/-- `check_policy` -/
def checkPolicy (password : List UInt8) (policy : PasswordPolicy) : ℕ :=
  let has := password.foldl classifyByte ⟨false, false, false, false⟩
  if sizeToInt password.length < policy.minLen then 1
  else if policy.requireUpper ∧ !has.hasUpper then 2
  else if policy.requireLower ∧ !has.hasLower then 3
  else if policy.requireDigit ∧ !has.hasDigit then 4
  else if policy.requireSymbol ∧ !has.hasSymbol then 5
  else 0

/-- The `policy` of `main`. -/
def defaultPolicy : PasswordPolicy := ⟨12, true, true, true, true⟩

/-- `usage` -/
def authdUsage : List (List UInt8) :=
  [putsLine "Usage:",
    putsLine "  authd policy-check <password>",
    putsLine "  authd policy-check --stdin",
    putsLine "  authd shadow-state <hash-field>",
    putsLine "  authd verify --user <name> [--shadow <path>] --password-stdin"]

/-- The exit after `usage`. -/
def authdUsageExit : AuthdExit := ⟨1, authdUsage, []⟩

/-- What `fgets` and `strcspn` make of the standard input. The buffer has 512 bytes, so a line
that is longer is cut to 511 of them. -/
def readPassword (stdin : List UInt8) : Option (List UInt8) :=
  (fgets 512 stdin).head?.map fun buf =>
    (cstr buf).takeWhile fun c => !(c = 0x0D ∨ c = 0x0A)

/-- The end of `authd policy-check`. -/
def policyCheck (password : List UInt8) : AuthdExit :=
  let rc := checkPolicy password defaultPolicy
  if rc ≠ 0 then ⟨rc, [], [logError "authd" "password policy check failed"]⟩
  else ⟨0, [], [logInfo "authd" "password policy check passed"]⟩

/-- The variables of the option loop of `authd verify`. -/
structure VerifyArgs : Type where
  /-- `user` -/
  user : Option (List UInt8)
  /-- `shadow_path` -/
  shadowPath : List UInt8
  /-- `got_pw_stdin` -/
  gotPwStdin : Bool
  deriving DecidableEq, Repr

/-- The option loop of `authd verify`; an option that takes a value is refused at the end. -/
def parseVerifyLoop : VerifyArgs → List (List UInt8) → Option VerifyArgs
  | args, [] => some args
  | args, [arg] =>
    if arg = lit "--password-stdin" then some { args with gotPwStdin := true } else none
  | args, arg :: value :: rest =>
    if arg = lit "--user" then parseVerifyLoop { args with user := some value } rest
    else if arg = lit "--shadow" then parseVerifyLoop { args with shadowPath := value } rest
    else if arg = lit "--password-stdin" then
      parseVerifyLoop { args with gotPwStdin := true } (value :: rest)
    else none

/-- The variables before the loop. -/
def verifyStart : VerifyArgs := ⟨none, lit "/etc/shadow", false⟩

/-- The end of `authd verify`, with the options. -/
def verifyPassword (sys : AuthdSystem) (user shadowPath : List UInt8) : AuthdExit :=
  match readPassword sys.stdin with
  | none => ⟨6, [], [logError "authd" "failed to read password from stdin"]⟩
  | some password =>
    let rc := verifyUserPassword sys.crypt user password (sys.file shadowPath)
    if rc ≠ 0 then ⟨rc, [], [logError "authd" "password verify failed"]⟩
    else ⟨0, [], [logInfo "authd" "password verify succeeded"]⟩

/-- `authd verify` -/
def mainVerify (sys : AuthdSystem) (words : List (List UInt8)) : AuthdExit :=
  match parseVerifyLoop verifyStart words with
  | none => authdUsageExit
  | some args =>
    match args.user with
    | none => authdUsageExit
    | some user =>
      if args.gotPwStdin then verifyPassword sys user args.shadowPath else authdUsageExit

/-- `authd policy-check` -/
def mainPolicyCheck (sys : AuthdSystem) (arg : List UInt8) : AuthdExit :=
  if arg = lit "--stdin" then
    match readPassword sys.stdin with
    | none => ⟨6, [], [logError "authd" "failed reading password from stdin"]⟩
    | some password => policyCheck password
  else
    policyCheck arg

/-- `authd shadow-state` -/
def mainShadowState (hashField : List UInt8) : AuthdExit :=
  let rc := checkShadowHashState hashField
  if rc = 0 then ⟨0, [putsLine "state=active"], []⟩
  else if rc = 1 then ⟨2, [putsLine "state=unset"], []⟩
  else ⟨3, [putsLine "state=locked"], []⟩

/-- `main` -/
def authdMain (sys : AuthdSystem) : List (List UInt8) → AuthdExit
  | _ :: command :: arg :: rest =>
    if command = lit "policy-check" then mainPolicyCheck sys arg
    else if command = lit "verify" then mainVerify sys (arg :: rest)
    else if command = lit "shadow-state" then mainShadowState arg
    else authdUsageExit
  | _ => authdUsageExit

/-! ## The options of `verify` -/

/-- An option of `authd verify`, with its value. A command line is read in words, and these are
what the words stand for. -/
inductive VerifyOption : Type where
  /-- `--user` -/
  | user : List UInt8 → VerifyOption
  /-- `--shadow` -/
  | shadow : List UInt8 → VerifyOption
  /-- `--password-stdin` -/
  | passwordStdin : VerifyOption
  deriving DecidableEq, Repr

namespace VerifyOption

/-- How an option is written. -/
def spelling : VerifyOption → List (List UInt8)
  | .user name => [lit "--user", name]
  | .shadow path => [lit "--shadow", path]
  | .passwordStdin => [lit "--password-stdin"]

/-- What an option does. -/
def apply (args : VerifyArgs) : VerifyOption → VerifyArgs
  | .user name => { args with user := some name }
  | .shadow path => { args with shadowPath := path }
  | .passwordStdin => { args with gotPwStdin := true }

/-- The value of `--user`. -/
def userName : VerifyOption → Option (List UInt8)
  | .user name => some name
  | _ => none

/-- The value of `--shadow`. -/
def shadowFile : VerifyOption → Option (List UInt8)
  | .shadow path => some path
  | _ => none

end VerifyOption

/-- The words of a command line: each option, and its value behind it if it has one. -/
def spellVerify (opts : List VerifyOption) : List (List UInt8) :=
  opts.flatMap VerifyOption.spelling

/-- The value of the last `--user`. An option that comes again is no error: it overwrites the
value. -/
def lastUser (opts : List VerifyOption) : Option (List UInt8) :=
  (opts.filterMap VerifyOption.userName).getLast?

/-- The value of the last `--shadow`, or the default, `/etc/shadow`. -/
def lastShadow (opts : List VerifyOption) : List UInt8 :=
  (opts.filterMap VerifyOption.shadowFile).getLastD (lit "/etc/shadow")

theorem parseVerifyLoop_spelling (args : VerifyArgs) (opt : VerifyOption)
    (rest : List (List UInt8)) :
    parseVerifyLoop args (opt.spelling ++ rest) = parseVerifyLoop (opt.apply args) rest := by
  cases opt with
  | user name => rfl
  | shadow path => rfl
  | passwordStdin =>
    cases rest with
    | nil => rfl
    | cons value rest => rfl

/-- **The loop reads options**, and nothing else. The induction is on the words, and an option
takes one or two of them. -/
theorem parseVerifyLoop_iff (words : List (List UInt8)) :
    ∀ args args' : VerifyArgs, parseVerifyLoop args words = some args' ↔
      ∃ opts, spellVerify opts = words ∧ opts.foldl VerifyOption.apply args = args' := by
  have hcomplete : ∀ (opts : List VerifyOption) (args : VerifyArgs),
      parseVerifyLoop args (spellVerify opts) = some (opts.foldl VerifyOption.apply args) := by
    intro opts
    induction opts with
    | nil => exact fun _ => rfl
    | cons opt opts ih => exact fun args => (parseVerifyLoop_spelling args opt _).trans (ih _)
  intro args args'
  constructor
  · intro h
    induction args, words using parseVerifyLoop.induct with
    | case1 args => exact ⟨[], rfl, Option.some.inj h⟩
    | case2 args =>
      rw [parseVerifyLoop, if_pos rfl] at h
      exact ⟨[.passwordStdin], rfl, Option.some.inj h⟩
    | case3 args arg hne =>
      rw [parseVerifyLoop, if_neg hne] at h
      exact absurd h nofun
    | case4 args value rest ih =>
      rw [parseVerifyLoop, if_pos rfl] at h
      obtain ⟨opts, hspell, happly⟩ := ih h
      exact ⟨.user value :: opts, by rw [← hspell]; rfl, happly⟩
    | case5 args value rest hne ih =>
      rw [parseVerifyLoop, if_neg hne, if_pos rfl] at h
      obtain ⟨opts, hspell, happly⟩ := ih h
      exact ⟨.shadow value :: opts, by rw [← hspell]; rfl, happly⟩
    | case6 args value rest hne hne' ih =>
      rw [parseVerifyLoop, if_neg hne, if_neg hne', if_pos rfl] at h
      obtain ⟨opts, hspell, happly⟩ := ih h
      refine ⟨.passwordStdin :: opts, ?_, happly⟩
      rw [spellVerify, List.flatMap_cons, ← spellVerify, hspell]
      rfl
    | case7 args arg value rest hne hne' hne'' =>
      rw [parseVerifyLoop, if_neg hne, if_neg hne', if_neg hne''] at h
      exact absurd h nofun
  · rintro ⟨opts, rfl, rfl⟩
    exact hcomplete opts args

theorem lastUser_cons (opt : VerifyOption) (opts : List VerifyOption) :
    lastUser (opt :: opts) = (lastUser opts).or opt.userName := by
  cases opt with
  | user name =>
    have hcons : lastUser (.user name :: opts) =
        (name :: opts.filterMap VerifyOption.userName).getLast? := rfl
    rw [hcons, List.getLast?_cons, ← lastUser]
    cases lastUser opts <;> rfl
  | _ => exact (Option.or_none).symm

/-- What the options say, whatever was there before. The loop goes over the words once, so the
induction needs the variables it comes with. -/
structure ReadsVerify (args : VerifyArgs) (opts : List VerifyOption) (args' : VerifyArgs) :
    Prop where
  user : args'.user = (lastUser opts).or args.user
  shadowPath : args'.shadowPath = (opts.filterMap VerifyOption.shadowFile).getLastD args.shadowPath
  gotPwStdin : args'.gotPwStdin = true ↔ args.gotPwStdin = true ∨ .passwordStdin ∈ opts

theorem foldl_apply_verify (opts : List VerifyOption) :
    ∀ args : VerifyArgs, ReadsVerify args opts (opts.foldl VerifyOption.apply args) := by
  induction opts with
  | nil =>
    intro args
    exact ⟨rfl, rfl, (or_iff_left List.not_mem_nil).symm⟩
  | cons opt opts ih =>
    intro args
    obtain ⟨huser, hshadow, hstdin⟩ := ih (opt.apply args)
    rw [List.foldl_cons]
    refine ⟨?_, ?_, ?_⟩
    · rw [huser, lastUser_cons, Option.or_assoc]
      cases opt <;> rfl
    · rw [hshadow]
      cases opt with
      | shadow path =>
        show _ = (path :: opts.filterMap VerifyOption.shadowFile).getLastD args.shadowPath
        rw [List.getLastD_cons]
        rfl
      | _ => rfl
    · rw [hstdin, List.mem_cons]
      cases opt <;> simp [VerifyOption.apply]

/-- **`authd verify` succeeds exactly if** its words are options, with a user and with
`--password-stdin`, there is a line to read, and the password read is that of the user in the
shadow file. -/
theorem authdMain_verify_iff (sys : AuthdSystem) (name : List UInt8) (words : List (List UInt8)) :
    (authdMain sys (name :: lit "verify" :: words)).status = 0 ↔
      ∃ opts user password, spellVerify opts = words ∧ lastUser opts = some user ∧
        .passwordStdin ∈ opts ∧ readPassword sys.stdin = some password ∧
        verifyUserPassword sys.crypt user password (sys.file (lastShadow opts)) = 0 := by
  have hmain : (authdMain sys (name :: lit "verify" :: words)).status = 0 ↔
      (mainVerify sys words).status = 0 := by
    cases words with
    | nil => exact ⟨fun h => absurd h Nat.one_ne_zero, fun h => absurd h Nat.one_ne_zero⟩
    | cons arg rest => rfl
  have hpassword (user path : List UInt8) : (verifyPassword sys user path).status = 0 ↔
      ∃ password, readPassword sys.stdin = some password ∧
        verifyUserPassword sys.crypt user password (sys.file path) = 0 := by
    rw [verifyPassword]
    cases readPassword sys.stdin with
    | none => exact ⟨fun h => absurd h (Nat.succ_ne_zero 5), fun ⟨_, h, _⟩ => absurd h nofun⟩
    | some password =>
      simp only [Option.some.injEq, exists_eq_left']
      split
      · rename_i hrc
        exact ⟨fun h => absurd h hrc, fun h => absurd h hrc⟩
      · rename_i hrc
        exact ⟨fun _ => not_not.mp hrc, fun _ => rfl⟩
  rw [hmain]
  constructor
  · intro h
    rw [mainVerify] at h
    cases hparse : parseVerifyLoop verifyStart words with
    | none =>
      rw [hparse] at h
      exact absurd h Nat.one_ne_zero
    | some args =>
      rw [hparse] at h
      obtain ⟨opts, hspell, rfl⟩ := (parseVerifyLoop_iff words _ _).mp hparse
      obtain ⟨huser, hshadow, hstdin⟩ := foldl_apply_verify opts verifyStart
      have hlastUser := huser.trans Option.or_none
      dsimp only at h
      rw [hlastUser] at h
      cases hlast : lastUser opts with
      | none =>
        rw [hlast] at h
        exact absurd h Nat.one_ne_zero
      | some user =>
        rw [hlast] at h
        dsimp only at h
        split at h
        · rename_i hflag
          obtain ⟨password, hread, hverify⟩ := (hpassword _ _).mp h
          rw [hshadow] at hverify
          exact ⟨opts, user, password, hspell, hlast,
            (hstdin.mp hflag).resolve_left Bool.false_ne_true, hread, hverify⟩
        · exact absurd h Nat.one_ne_zero
  · rintro ⟨opts, user, password, hspell, hlast, hmem, hread, hverify⟩
    obtain ⟨huser, hshadow, hstdin⟩ := foldl_apply_verify opts verifyStart
    have hparse := (parseVerifyLoop_iff words verifyStart _).mpr ⟨opts, hspell, rfl⟩
    have hsome : (opts.foldl VerifyOption.apply verifyStart).user = some user := by
      rw [huser, hlast]
      rfl
    rw [mainVerify, hparse]
    dsimp only
    rw [hsome]
    dsimp only
    rw [if_pos (hstdin.mpr (Or.inr hmem)), hshadow]
    exact (hpassword user _).mpr ⟨password, hread, hverify⟩

/-! ## The password that is read -/

/-- What is typed for a password: the input up to the first newline or carriage return, or up to a
NUL, which ends the string in the buffer. -/
def typedPassword (stdin : List UInt8) : List UInt8 :=
  stdin.takeWhile fun c => c ≠ 0 ∧ c ≠ 0x0D ∧ c ≠ 0x0A

/-- One call of `fgets` reads 511 bytes of it at most. -/
theorem readPassword_eq {stdin : List UInt8} (hne : stdin ≠ []) :
    readPassword stdin = some ((typedPassword stdin).take 511) := by
  obtain ⟨stop, rest, hgets, -, -, hstop⟩ := fgets_step (show 0 < 511 by decide) hne
  have hfront (s : List UInt8) :
      (cstr s).takeWhile (fun c => !(c = 0x0D ∨ c = 0x0A)) = typedPassword s := by
    rw [cstr, List.takeWhile_takeWhile, typedPassword]
    congr 1
    funext c
    simp [and_comm]
  -- the newline at the end of the piece does not count
  have hend : typedPassword (chunk 511 stdin ++ stop) = typedPassword (chunk 511 stdin) := by
    rcases hstop with ⟨rfl, -⟩ | ⟨rfl, -⟩
    · rw [typedPassword, List.takeWhile_append]
      split
      · rename_i hall
        rw [typedPassword, List.takeWhile_cons_of_neg (by decide), List.append_nil]
        exact ((List.takeWhile_prefix _).eq_of_length hall).symm
      · rfl
    · rw [List.append_nil]
  have hline : (stdin.takeWhile fun b => b ≠ 0x0A).takeWhile
      (fun c => c ≠ 0 ∧ c ≠ 0x0D ∧ c ≠ 0x0A) = typedPassword stdin := by
    rw [List.takeWhile_takeWhile, typedPassword]
    congr 1
    funext c
    rw [decide_eq_decide, decide_eq_true_iff, decide_eq_true_iff]
    exact ⟨And.left, fun h => ⟨h, h.2.2⟩⟩
  have hchunk : typedPassword (chunk 511 stdin) = (typedPassword stdin).take 511 := by
    rw [typedPassword, chunk, ← List.take_takeWhile, hline]
  rw [readPassword, hgets, List.head?_cons, Option.map_some, hfront, hend, hchunk]

/-! ## The policy -/

/-- Any other character. -/
def issymbol (c : UInt8) : Bool := !(isupper c || islower c || isdigit c)

/-- The rules of the policy, in order: which of them a password follows. -/
def policyRules (pw : List UInt8) : List Bool :=
  [decide (12 ≤ sizeToInt pw.length), pw.any isupper, pw.any islower, pw.any isdigit,
    pw.any issymbol]

/-- The number of the first rule that is broken, 0 if none is. The exit status is made of it, so
that a caller knows what is wrong with the password. -/
def brokenRule (pw : List UInt8) : ℕ :=
  ((policyRules pw).findIdx? (!·)).elim 0 (· + 1)

/-- The classes do not overlap. -/
theorem classes_disjoint (c : UInt8) :
    (isupper c = true → islower c = false ∧ isdigit c = false) ∧
      (islower c = true → isdigit c = false) := by
  simp only [isupper, islower, isdigit, decide_eq_true_eq, decide_eq_false_iff_not,
    UInt8.le_iff_toNat_le, UInt8.reduceToNat]
  omega

/-- The loop finds each class that there is. -/
theorem foldl_classifyByte (pw : List UInt8) : ∀ has : PasswordClasses,
    pw.foldl classifyByte has =
      ⟨has.hasUpper || pw.any isupper, has.hasLower || pw.any islower,
        has.hasDigit || pw.any isdigit, has.hasSymbol || pw.any issymbol⟩ := by
  induction pw with
  | nil => simp
  | cons c pw ih =>
    intro has
    have hdisjoint := classes_disjoint c
    rw [List.foldl_cons, ih, classifyByte]
    cases hupper : isupper c <;> cases hlower : islower c <;> cases hdigit : isdigit c <;>
      simp_all [issymbol]

theorem checkPolicy_brokenRule (pw : List UInt8) :
    checkPolicy pw defaultPolicy = brokenRule pw := by
  have hrules : ∀ long upper lower digit symbol : Bool,
      (if long = false then 1 else if true = true ∧ (!upper) = true then 2
        else if true = true ∧ (!lower) = true then 3 else if true = true ∧ (!digit) = true then 4
        else if true = true ∧ (!symbol) = true then 5 else 0) =
      ([long, upper, lower, digit, symbol].findIdx? (!·)).elim 0 (· + 1) := by decide
  have hlength : sizeToInt pw.length < defaultPolicy.minLen ↔
      decide (12 ≤ sizeToInt pw.length) = false := by
    rw [decide_eq_false_iff_not, Int.not_le]
    rfl
  rw [checkPolicy, foldl_classifyByte, brokenRule, policyRules]
  simp only [hlength]
  generalize decide (12 ≤ sizeToInt pw.length) = long
  generalize pw.any isupper = upper
  generalize pw.any islower = lower
  generalize pw.any isdigit = digit
  generalize pw.any issymbol = symbol
  exact hrules long upper lower digit symbol

theorem policyCheck_status (pw : List UInt8) : (policyCheck pw).status = brokenRule pw := by
  rw [policyCheck, checkPolicy_brokenRule]
  generalize brokenRule pw = rc
  by_cases hok : rc = 0
  · rw [hok]
    rfl
  · rw [if_pos hok]

/-- **`authd policy-check` names the first rule that a password breaks**; from the standard input
it decides about the first 511 bytes of what was typed, and fails if there is no input. -/
theorem authdMain_policyCheck (sys : AuthdSystem) (name : List UInt8) (words : List (List UInt8))
    {pw : List UInt8} (hflag : pw ≠ lit "--stdin") :
    (authdMain sys (name :: lit "policy-check" :: pw :: words)).status = brokenRule pw ∧
      (authdMain sys (name :: lit "policy-check" :: lit "--stdin" :: words)).status =
        if sys.stdin = [] then 6 else brokenRule ((typedPassword sys.stdin).take 511) := by
  constructor
  · rw [authdMain, if_pos rfl, mainPolicyCheck, if_neg hflag, policyCheck_status]
  · rw [authdMain, if_pos rfl, mainPolicyCheck, if_pos rfl]
    by_cases hempty : sys.stdin = []
    · rw [if_pos hempty, hempty]
      rfl
    · rw [if_neg hempty, readPassword_eq hempty]
      exact policyCheck_status _

/-- A password that is strong in its last three bytes only. -/
def longPassword : List UInt8 := List.replicate 511 0x61 ++ lit "A1!"

/-- As an argument it passes. From the standard input the three bytes are not read, and the rule
about capital letters is broken. -/
theorem authdMain_policyCheck_long :
    let sys : AuthdSystem := ⟨cryptFor [], fun _ => none, longPassword ++ [0x0D, 0x0A]⟩
    (authdMain sys [lit "authd", lit "policy-check", longPassword]).status = 0 ∧
      (authdMain sys [lit "authd", lit "policy-check", lit "--stdin"]).status = 2 := by
  have hflag : longPassword ≠ lit "--stdin" := by decide +kernel
  have hargument : brokenRule longPassword = 0 := by decide +kernel
  have hread : brokenRule ((typedPassword (longPassword ++ [0x0D, 0x0A])).take 511) = 2 := by
    decide +kernel
  obtain ⟨hone, htwo⟩ := authdMain_policyCheck
    ⟨cryptFor [], fun _ => none, longPassword ++ [0x0D, 0x0A]⟩ (lit "authd") [] hflag
  exact ⟨hone.trans hargument, htwo.trans ((if_neg (by decide +kernel)).trans hread)⟩

end WaluOs
