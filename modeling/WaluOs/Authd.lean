import WaluOs.CStrings

/-!
# Passwords

`authd verify` looks a user up in the shadow file and compares what `crypt` makes of the
password with the hash of the record. A record is fields between colons, and `strtok_r`
leaves out the empty ones: what `authd` takes for the hash is the second field that is not
empty.

`FieldsLineUp` is when that makes no difference for a user, and `verifyUserPassword_sound_iff`
says that the answers of `authd` can be relied on then, whatever `crypt` computes, and only
then.

For a file whose lines fit the buffer the loop is a search in a list of records
(`parseShadowLoop_file`), and what is left to compare are two ways to take a line apart at its
colons.
-/

namespace WaluOs

open CStrings

/-! ## The program -/

/-- What `parse_shadow_hash` returns. A caller tells the three cases by the number, and reads the
buffer in the last one. -/
inductive ShadowHash : Type where
  /-- `-1`: the file cannot be opened -/
  | unreadable : ShadowHash
  /-- `1`: there is no such user -/
  | missing : ShadowHash
  /-- `0`, with what is in `out_hash` -/
  | found : List UInt8 → ShadowHash
  deriving DecidableEq, Repr

/-- `":\n"` -/
def isColonOrNewline (b : UInt8) : Bool := b = 0x3A ∨ b = 0x0A

/-- The loop of `parse_shadow_hash` over the lines. -/
def parseShadowLoop (user : List UInt8) (outLen : ℕ) : List (List UInt8) → ShadowHash
  | [] => .missing
  | line :: lines =>
    match tokens isColonOrNewline 2 (cstr line) with
    | [name, hash] =>
      if name = user then .found (snprintf outLen hash) else parseShadowLoop user outLen lines
    | _ => parseShadowLoop user outLen lines

/-- `parse_shadow_hash`, on what is in the file if it can be opened. It takes the tokens of a line
for its fields, and tokens are never empty. -/
def parseShadowHash (shadow : Option (List UInt8)) (user : List UInt8) (outLen : ℕ) : ShadowHash :=
  match shadow with
  | none => .unreadable
  | some content => parseShadowLoop user outLen (fgets 1024 content)

/-- `check_shadow_hash_state` -/
def checkShadowHashState : List UInt8 → ℕ
  | [] => 1
  | c :: _ => if c = 0x21 ∨ c = 0x2A then 2 else 0

/-- `verify_user_password`, when it has found a hash. -/
def verifyHash (crypt : List UInt8 → List UInt8 → Option (List UInt8))
    (password hash : List UInt8) : ℕ :=
  if checkShadowHashState hash ≠ 0 then if checkShadowHashState hash = 1 then 9 else 10
  else
    match crypt password hash with
    | none => 11
    | some computed => if computed = hash then 0 else 12

/-- `verify_user_password` -/
def verifyUserPassword (crypt : List UInt8 → List UInt8 → Option (List UInt8))
    (user password : List UInt8) (shadow : Option (List UInt8)) : ℕ :=
  match parseShadowHash shadow user 512 with
  | .unreadable => 8
  | .missing => 7
  | .found hash => verifyHash crypt password hash

/-! ## The shadow file -/

/-- A line of the shadow file: fields, any of them possibly empty. An empty field means something
here, an empty hash for instance that no password is set. -/
structure ShadowRecord : Type where
  /-- the user -/
  name : List UInt8
  /-- the hash -/
  hash : List UInt8
  /-- the fields behind it -/
  others : List (List UInt8)
  /-- no field has a colon, a newline or a NUL byte in it -/
  clean : ∀ field ∈ name :: hash :: others, 0x3A ∉ field ∧ 0x0A ∉ field ∧ 0 ∉ field
  /-- the line fits the buffer -/
  short : ([0x3A].intercalate (name :: hash :: others)).length < 1023

/-- The fields, in order. -/
def ShadowRecord.fields (r : ShadowRecord) : List (List UInt8) := r.name :: r.hash :: r.others

/-- The line, without its newline. -/
def ShadowRecord.text (r : ShadowRecord) : List UInt8 := [0x3A].intercalate r.fields

/-- A file of these lines. The last newline may be missing, as it is where somebody has edited the
file. -/
def shadowFile (newline : Bool) : List ShadowRecord → List UInt8
  | [] => []
  | [r] => if newline then r.text ++ [0x0A] else r.text
  | r :: r' :: records => r.text ++ 0x0A :: shadowFile newline (r' :: records)

/-- The hash of the first record of a user. It is what the file says, whatever a program makes of
it. -/
def firstHash (user : List UInt8) (records : List ShadowRecord) : Option (List UInt8) :=
  (records.find? fun r => r.name = user).map ShadowRecord.hash

/-- A hash of which no password is the right one, by the mark in front of it. -/
def Locked (hash : List UInt8) : Prop := hash.head? = some 0x21 ∨ hash.head? = some 0x2A

/-- A hash that a password may have: neither empty nor locked. -/
def Active (hash : List UInt8) : Prop := hash ≠ [] ∧ ¬Locked hash

/-- What the answers of `verify_user_password` mean. Only three of them are claims about the file,
and each of the three is compared with what the file says of the user. -/
structure VerifySound (crypt : List UInt8 → List UInt8 → Option (List UInt8))
    (records : List ShadowRecord) (user password : List UInt8) (answer : ℕ) : Prop where
  /-- the password is accepted if it is the right one -/
  accepted : answer = 0 →
    ∃ hash, firstHash user records = some hash ∧ Active hash ∧ crypt password hash = some hash
  /-- the hash is reported unset if it is empty -/
  unset : answer = 9 ↔ firstHash user records = some []
  /-- the account is reported locked if it is -/
  locked : answer = 10 ↔ ∃ hash, firstHash user records = some hash ∧ Locked hash

/-! ## What the tokens are -/

/-- The fields that are not empty. -/
def ShadowRecord.filled (r : ShadowRecord) : List (List UInt8) :=
  r.fields.filter fun w => !w.isEmpty

/-- The second field that is not empty, if the first one is `user`. -/
def filledHash? (user : List UInt8) : List (List UInt8) → Option (List UInt8)
  | name :: hash :: _ => if name = user then some hash else none
  | _ => none

/-- The second field that is not empty, of the first record whose first such field is `user`. It
is what the tokens of the lines amount to. -/
def filledHash (user : List UInt8) (records : List ShadowRecord) : Option (List UInt8) :=
  records.findSome? fun r => filledHash? user r.filled

/-- A line and its newline are read at once. -/
theorem ShadowRecord.length_text (r : ShadowRecord) : r.text.length + 1 < 1024 := by
  have hshort : r.text.length < 1023 := r.short
  omega

theorem mem_intercalate {d c : UInt8} {fields : List (List UInt8)}
    (h : c ∈ [d].intercalate fields) : c = d ∨ ∃ field ∈ fields, c ∈ field := by
  induction fields with
  | nil => exact absurd h List.not_mem_nil
  | cons field fields ih =>
    cases fields with
    | nil =>
      rw [List.intercalate_singleton] at h
      exact Or.inr ⟨field, List.mem_singleton_self field, h⟩
    | cons field' fields =>
      rw [List.intercalate_cons_cons, List.mem_append, List.mem_append, List.mem_singleton] at h
      rcases h with (h | h) | h
      · exact Or.inr ⟨field, List.mem_cons_self, h⟩
      · exact Or.inl h
      · refine (ih h).imp_right fun hrest => ?_
        obtain ⟨w, hw, hc⟩ := hrest
        exact ⟨w, List.mem_cons_of_mem _ hw, hc⟩

/-- What is in no field is not in the line. -/
theorem ShadowRecord.notMem_text_of (r : ShadowRecord) {c : UInt8} (hcolon : c ≠ 0x3A)
    (hfields : ∀ field ∈ r.fields, c ∉ field) : c ∉ r.text := by
  intro h
  rcases mem_intercalate h with heq | ⟨field, hfield, hmem⟩
  · exact hcolon heq
  · exact hfields field hfield hmem

theorem ShadowRecord.notMem_text (r : ShadowRecord) : 0x0A ∉ r.text ∧ 0 ∉ r.text :=
  ⟨r.notMem_text_of (by decide) fun field hfield => (r.clean field hfield).2.1,
    r.notMem_text_of (by decide) fun field hfield => (r.clean field hfield).2.2⟩

theorem ShadowRecord.text_ne_nil (r : ShadowRecord) : r.text ≠ [] := by
  intro h
  have hlen := congrArg List.length h
  rw [text, fields, List.intercalate_cons_cons, List.length_append, List.length_append] at hlen
  simp at hlen

/-- The words of a line. -/
theorem ShadowRecord.words_text (r : ShadowRecord) : words isColonOrNewline r.text = r.filled := by
  refine words_intercalate rfl _ fun field hfield c hc => ?_
  obtain ⟨hcolon, hnewline, -⟩ := r.clean field hfield
  refine decide_eq_false ?_
  rintro (rfl | rfl)
  · exact hcolon hc
  · exact hnewline hc

/-- The tokens of a line, as it is read. -/
theorem ShadowRecord.tokens_line (r : ShadowRecord) {line : List UInt8}
    (h : line = r.text ∨ line = r.text ++ [0x0A]) :
    tokens isColonOrNewline 2 (cstr line) = r.filled.take 2 := by
  have hwords : words isColonOrNewline line = r.filled ∧ 0 ∉ line := by
    rcases h with rfl | rfl
    · exact ⟨r.words_text, r.notMem_text.2⟩
    · refine ⟨?_, ?_⟩
      · rw [words_append_cons rfl, words_nil, List.append_nil, r.words_text]
      · rw [List.mem_append, List.mem_singleton]
        exact fun hmem => hmem.elim r.notMem_text.2 (by decide)
  rw [cstr_eq_self hwords.2, tokens_eq, hwords.1]

/-- One line of the loop. -/
theorem parseShadowLoop_line (user : List UInt8) (outLen : ℕ) (r : ShadowRecord)
    {line : List UInt8} (h : line = r.text ∨ line = r.text ++ [0x0A]) (lines : List (List UInt8)) :
    parseShadowLoop user outLen (line :: lines) =
      match filledHash? user r.filled with
      | none => parseShadowLoop user outLen lines
      | some hash => .found (snprintf outLen hash) := by
  rw [parseShadowLoop, r.tokens_line h]
  rcases r.filled with _ | ⟨name, _ | ⟨hash, _⟩⟩
  · rfl
  · rfl
  · rw [filledHash?]
    dsimp only [List.take]
    split_ifs
    · rfl
    · rfl

theorem filledHash_cons (user : List UInt8) (r : ShadowRecord) (records : List ShadowRecord) :
    filledHash user (r :: records) = (filledHash? user r.filled).or (filledHash user records) := by
  rw [filledHash, List.findSome?_cons, ← filledHash]
  cases filledHash? user r.filled with
  | none => rfl
  | some hash => rfl

/-- The file, line by line. A line is short enough for one piece, so the loop comes to the records
one after the other. -/
theorem parseShadowLoop_file (user : List UInt8) (outLen : ℕ) (newline : Bool) :
    ∀ records : List ShadowRecord,
      parseShadowLoop user outLen (fgets 1024 (shadowFile newline records)) =
        match filledHash user records with
        | none => .missing
        | some hash => .found (snprintf outLen hash)
  | [] => rfl
  | [r] => by
    -- with or without its newline, the last line is read as one
    have hlines : ∃ line, (line = r.text ∨ line = r.text ++ [0x0A]) ∧
        fgets 1024 (shadowFile newline [r]) = [line] := by
      cases newline with
      | false =>
        refine ⟨r.text, Or.inl rfl, ?_⟩
        rw [shadowFile, if_neg (by decide), fgets_last r.notMem_text.1 r.length_text,
          if_neg r.text_ne_nil]
      | true =>
        refine ⟨r.text ++ [0x0A], Or.inr rfl, ?_⟩
        rw [shadowFile, if_pos rfl, fgets_line r.notMem_text.1 r.length_text]
        rfl
    obtain ⟨line, hline, hread⟩ := hlines
    rw [hread, parseShadowLoop_line user outLen r hline, filledHash_cons]
    cases filledHash? user r.filled with
    | none => rfl
    | some hash => rfl
  | r :: r' :: records => by
    rw [shadowFile, fgets_line r.notMem_text.1 r.length_text,
      parseShadowLoop_line user outLen r (Or.inr rfl),
      parseShadowLoop_file user outLen newline (r' :: records), filledHash_cons user r]
    cases filledHash? user r.filled with
    | none => rfl
    | some hash => rfl

/-- **What is found**: the first part of the hash that the empty fields leave. -/
theorem verifyUserPassword_file (crypt : List UInt8 → List UInt8 → Option (List UInt8))
    (user password : List UInt8) (newline : Bool) (records : List ShadowRecord) :
    verifyUserPassword crypt user password (some (shadowFile newline records)) =
      match filledHash user records with
      | none => 7
      | some hash => verifyHash crypt password (snprintf 512 hash) := by
  rw [verifyUserPassword, parseShadowHash, parseShadowLoop_file]
  cases filledHash user records with
  | none => rfl
  | some hash => rfl

/-- It is not empty. -/
theorem snprintf_filledHash {user hash : List UInt8} {records : List ShadowRecord}
    (h : filledHash user records = some hash) : snprintf 512 hash ≠ [] := by
  obtain ⟨r, -, hr⟩ := List.exists_of_findSome?_eq_some h
  have hmem : ∀ w ∈ r.filled, w ≠ [] := fun w hw => by simpa using (List.mem_filter.mp hw).2
  rcases hfilled : r.filled with _ | ⟨name, _ | ⟨hash', _⟩⟩
  · rw [hfilled] at hr
    exact absurd hr.symm (Option.some_ne_none _)
  · rw [hfilled] at hr
    exact absurd hr.symm (Option.some_ne_none _)
  · rw [hfilled] at hr hmem
    obtain ⟨-, hsome⟩ := Option.ite_none_right_eq_some.mp hr
    obtain rfl := Option.some.inj hsome
    have hne : hash' ≠ [] := hmem hash' (List.mem_cons_of_mem _ List.mem_cons_self)
    rw [snprintf, Ne, List.take_eq_nil_iff]
    exact not_or.mpr ⟨by decide, hne⟩

/-! ## The answers -/

section answers

variable (crypt : List UInt8 → List UInt8 → Option (List UInt8)) (password : List UInt8)

theorem verifyHash_locked {hash : List UInt8} (h : Locked hash) :
    verifyHash crypt password hash = 10 := by
  cases hash with
  | nil => exact (h.elim (Option.some_ne_none _).symm (Option.some_ne_none _).symm).elim
  | cons c hash =>
    have hc : c = 0x21 ∨ c = 0x2A := h.imp Option.some.inj Option.some.inj
    rw [verifyHash, checkShadowHashState, if_pos hc, if_pos (by decide), if_neg (by decide)]

theorem verifyHash_active {hash : List UInt8} (h : Active hash) :
    verifyHash crypt password hash =
      match crypt password hash with
      | none => 11
      | some computed => if computed = hash then 0 else 12 := by
  cases hash with
  | nil => exact absurd rfl h.1
  | cons c hash =>
    have hc : ¬(c = 0x21 ∨ c = 0x2A) := fun hc =>
      h.2 (hc.imp (congrArg some) (congrArg some))
    rw [verifyHash, checkShadowHashState, if_neg hc, if_neg (by decide)]

end answers

/-- The answer for an active hash says nothing else than whether the password is right. -/
theorem Active.answer {hash : List UInt8} (h : Active hash)
    (crypt : List UInt8 → List UInt8 → Option (List UInt8)) (password : List UInt8) :
    (verifyHash crypt password hash = 0 ↔ crypt password hash = some hash) ∧
      verifyHash crypt password hash ≠ 9 ∧ verifyHash crypt password hash ≠ 10 := by
  rw [verifyHash_active crypt password h]
  cases crypt password hash with
  | none => simp
  | some computed =>
    by_cases heq : computed = hash
    · simp [heq]
    · simp [heq]

/-- A `crypt` that takes any password for one hash. -/
def cryptFor (hash : List UInt8) (_ setting : List UInt8) : Option (List UInt8) :=
  if setting = hash then some hash else none

/-! ## When the fields line up -/

/-- The hash that `authd` finds for a user serves as well as the one that the user has. It skips
empty fields, so it may find another field, or another record whose user is empty. This does no
harm where it finds the very hash, or a locked one for a locked one, or nothing for a user who has
a hash: then every answer is as the file says. -/
def FieldsLineUp (user : List UInt8) (records : List ShadowRecord) : Prop :=
  match firstHash user records, filledHash user records with
  | none, none => True
  | none, some _ => False
  | some hash, none => Active hash
  | some hash, some filled =>
    Locked hash ∧ Locked (snprintf 512 filled) ∨ Active hash ∧ hash = snprintf 512 filled

section lineUp

variable {user : List UInt8} {records : List ShadowRecord}

/-- No hash is found. -/
theorem verifySound_missing (crypt : List UInt8 → List UInt8 → Option (List UInt8))
    (password : List UInt8) : VerifySound crypt records user password 7 ↔
      ∀ hash, firstHash user records = some hash → Active hash := by
  constructor
  · rintro ⟨-, hunset, hlocked⟩ hash hfirst
    refine ⟨?_, fun hlock => ?_⟩
    · rintro rfl
      exact absurd (hunset.mpr hfirst) (by decide)
    · exact absurd (hlocked.mpr ⟨hash, hfirst, hlock⟩) (by decide)
  · intro h
    refine ⟨fun hzero => absurd hzero (by decide), ⟨fun hnine => absurd hnine (by decide), ?_⟩,
      ⟨fun hten => absurd hten (by decide), ?_⟩⟩
    · intro hfirst
      exact absurd rfl (h [] hfirst).1
    · rintro ⟨hash, hfirst, hlock⟩
      exact absurd hlock (h hash hfirst).2

/-- A hash is found, and it says what the user's hash says. -/
theorem verifySound_found {filled : List UInt8} (hfilled : filled ≠ []) :
    (∀ crypt password,
        VerifySound crypt records user password (verifyHash crypt password filled)) ↔
      ∃ hash, firstHash user records = some hash ∧
        (Locked hash ∧ Locked filled ∨ Active hash ∧ hash = filled) := by
  constructor
  · intro h
    -- a `crypt` that lets anybody in with the hash that was found
    obtain ⟨haccepted, hunset, hlocked⟩ := h (cryptFor filled) []
    by_cases hlock : Locked filled
    · obtain ⟨hash, hfirst, hlock'⟩ := hlocked.mp (verifyHash_locked _ _ hlock)
      exact ⟨hash, hfirst, Or.inl ⟨hlock', hlock⟩⟩
    · have hactive : Active filled := ⟨hfilled, hlock⟩
      obtain ⟨hash, hfirst, hactive', hcrypt⟩ := haccepted ((hactive.answer _ _).1.mpr (if_pos rfl))
      refine ⟨hash, hfirst, Or.inr ⟨hactive', ?_⟩⟩
      exact (Option.ite_none_right_eq_some.mp hcrypt).1
  · rintro ⟨hash, hfirst, ⟨hlock, hlock'⟩ | ⟨hactive, rfl⟩⟩ crypt password
    · rw [verifyHash_locked crypt password hlock']
      refine ⟨fun hzero => absurd hzero (by decide), ⟨fun hnine => absurd hnine (by decide), ?_⟩,
        ⟨fun _ => ⟨hash, hfirst, hlock⟩, fun _ => rfl⟩⟩
      rw [hfirst, Option.some_inj]
      rintro rfl
      exact (hlock.elim (Option.some_ne_none _).symm (Option.some_ne_none _).symm).elim
    · obtain ⟨hzero, hnine, hten⟩ := hactive.answer crypt password
      refine ⟨fun h => ⟨hash, hfirst, hactive, hzero.mp h⟩, ⟨fun h => absurd h hnine, ?_⟩,
        ⟨fun h => absurd h hten, ?_⟩⟩
      · rw [hfirst, Option.some_inj]
        exact fun h => absurd h hactive.1
      · rintro ⟨hash', hfirst', hlock⟩
        obtain rfl := Option.some.inj (hfirst.symm.trans hfirst')
        exact absurd hlock hactive.2

end lineUp

/-- **The answers are sound**, whatever `crypt` computes, if the fields line up, and only then. An
empty field in front of the hash makes the scanner take the field behind it. -/
theorem verifyUserPassword_sound_iff (user : List UInt8) (newline : Bool)
    (records : List ShadowRecord) :
    (∀ crypt password, VerifySound crypt records user password
        (verifyUserPassword crypt user password (some (shadowFile newline records)))) ↔
      FieldsLineUp user records := by
  simp only [verifyUserPassword_file]
  rw [FieldsLineUp]
  cases hfilled : filledHash user records with
  | none =>
    dsimp only
    constructor
    · intro h
      have hactive := (verifySound_missing (cryptFor []) []).mp (h _ _)
      cases hfirst : firstHash user records with
      | none => trivial
      | some hash => exact hactive hash hfirst
    · intro h crypt password
      refine (verifySound_missing crypt password).mpr fun hash hfirst => ?_
      rw [hfirst] at h
      exact h
  | some filled =>
    dsimp only
    rw [verifySound_found (snprintf_filledHash hfilled)]
    cases firstHash user records with
    | none => exact ⟨fun ⟨_, hnone, _⟩ => absurd hnone.symm (Option.some_ne_none _), False.elim⟩
    | some hash =>
      constructor
      · rintro ⟨hash', hfirst, h⟩
        obtain rfl := Option.some.inj hfirst
        exact h
      · exact fun h => ⟨hash, rfl, h⟩

/-- Where no name and no hash is empty or too long, the fields line up for every user. -/
theorem fieldsLineUp_of_filled {user : List UInt8} {records : List ShadowRecord}
    (h : ∀ r ∈ records, r.name ≠ [] ∧ r.hash ≠ [] ∧ r.hash.length < 512) :
    FieldsLineUp user records := by
  have hsame : filledHash user records = firstHash user records := by
    induction records with
    | nil => rfl
    | cons r records ih =>
      obtain ⟨⟨hname, hhash, -⟩, hrest⟩ := List.forall_mem_cons.mp h
      have hr : r.filled = r.name :: r.hash :: r.others.filter fun w => !w.isEmpty := by
        rw [ShadowRecord.filled, ShadowRecord.fields,
          List.filter_cons_of_pos (by simpa using hname),
          List.filter_cons_of_pos (by simpa using hhash)]
      rw [filledHash_cons, ih hrest, hr, filledHash?, firstHash, firstHash, List.find?_cons]
      by_cases huser : r.name = user
      · simp [huser]
      · simp [huser]
  have hlen : ∀ hash, firstHash user records = some hash →
      hash ≠ [] ∧ snprintf 512 hash = hash := by
    intro hash hfirst
    obtain ⟨r, hr, rfl⟩ := Option.map_eq_some_iff.mp hfirst
    obtain ⟨-, hne, hlt⟩ := h r (List.mem_of_find?_eq_some hr)
    exact ⟨hne, List.take_of_length_le (by omega)⟩
  rw [FieldsLineUp, hsame]
  cases hfirst : firstHash user records with
  | none => trivial
  | some hash =>
    obtain ⟨hne, hfits⟩ := hlen hash hfirst
    dsimp only
    rw [hfits]
    by_cases hlock : Locked hash
    · exact Or.inl ⟨hlock, hlock⟩
    · exact Or.inr ⟨⟨hne, hlock⟩, rfl⟩

/-- `alice::19000:0:99999:7:::` -/
def aliceUnset : ShadowRecord where
  name := lit "alice"
  hash := []
  others := [lit "19000", lit "0", lit "99999", lit "7", [], [], []]
  clean := by decide
  short := by decide

/-- `alice` has no password, and any password may be hers. -/
theorem aliceUnset_accepted :
    firstHash (lit "alice") [aliceUnset] = some [] ∧
      verifyUserPassword (cryptFor (lit "19000")) (lit "alice") (lit "x")
        (some (shadowFile true [aliceUnset])) = 0 ∧
      ¬∀ crypt password, VerifySound crypt [aliceUnset] (lit "alice") password
        (verifyUserPassword crypt (lit "alice") password
          (some (shadowFile true [aliceUnset]))) := by
  have hfirst : firstHash (lit "alice") [aliceUnset] = some [] := by decide
  have hzero : verifyUserPassword (cryptFor (lit "19000")) (lit "alice") (lit "x")
      (some (shadowFile true [aliceUnset])) = 0 := by decide +kernel
  refine ⟨hfirst, hzero, fun h => ?_⟩
  have hnine := (h (cryptFor (lit "19000")) (lit "x")).unset.mpr hfirst
  exact absurd (hzero.symm.trans hnine) (by decide)

end WaluOs
