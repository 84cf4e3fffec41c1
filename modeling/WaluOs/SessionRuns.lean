import WaluOs.ShellPolls

/-!
# Runs of the session table

The session table stores the number of a PTY, whose validity the PTY table decides, and
the active id stands beside both. The three agree because nothing is ever taken back: a
session that is in use stays in use under its id, and a PTY that is handed out stays
handed out. `SessionState.Ok` says how they agree, for any order of the calls and any
arguments.

What `shell_poll` reads is the PTY of the active session. The shell looks it up once and
then reads while commands run, so the second half of this file is about what the commands
leave: `KeepsPtys`.
-/

namespace WaluOs

/-! ## Calls -/

/-- The calls that change the two tables, with any arguments, valid or not. -/
inductive SessionOp : Type where
  /-- `pty_alloc` -/
  | ptyAlloc : SessionOp
  /-- `session_create` -/
  | create : UInt32 → SessionOp
  /-- `session_set_controlling_pty` -/
  | setControllingPty : ℤ → ℤ → SessionOp
  /-- `session_set_active` -/
  | setActive : ℤ → SessionOp
  deriving DecidableEq, Repr

/-- The two tables, and the ids that `session_create` has returned. The ids are what callers hold
in their hands; the code keeps no list of them. -/
structure SessionState : Type where
  /-- the session table -/
  sessions : Sessions
  /-- the PTY table -/
  ptys : Ptys
  /-- the ids of the successful calls, latest first -/
  created : List ℤ

/-- Take in what `session_create` returned; -1 is a failure. -/
def SessionState.grant (s : SessionState) (r : Sessions × ℤ) : SessionState :=
  { s with sessions := r.1, created := if r.2 = -1 then s.created else r.2 :: s.created }

/-- One call. -/
def sessionStep (s : SessionState) : SessionOp → SessionState
  | .ptyAlloc => { s with ptys := (ptyAlloc s.ptys).1 }
  | .create leaderPid => s.grant (sessionCreate s.sessions leaderPid)
  | .setControllingPty sessionId ptyId =>
    { s with sessions := (sessionSetControllingPty s.sessions s.ptys sessionId ptyId).1 }
  | .setActive sessionId => { s with sessions := (sessionSetActive s.sessions sessionId).1 }

/-- A run, after `pty_init` and `session_init`, with failing calls in it. -/
def sessionRun (ops : List SessionOp) : SessionState :=
  ops.foldl sessionStep ⟨sessionInit, ptyInit, []⟩

/-- The branch of a call that fails. -/
def Sessions.countInvalid (s : Sessions) : Sessions :=
  { s with gSessionInvalidOps := s.gSessionInvalidOps + 1 }

/-- Replace one entry of the table. -/
def Sessions.setEntry (s : Sessions) (i : ℕ) (entry : SessionEntry) : Sessions :=
  { s with gSessions := Function.update s.gSessions i entry }

/-! ## The ways a call can go -/

section

variable {s : Sessions} {p : Ptys}

@[simp] theorem Sessions.gSessions_setEntry_self (s : Sessions) (i : ℕ) (entry : SessionEntry) :
    (s.setEntry i entry).gSessions i = entry :=
  Function.update_self ..

theorem Sessions.gSessions_setEntry_ne (s : Sessions) {i j : ℕ} (h : j ≠ i)
    (entry : SessionEntry) : (s.setEntry i entry).gSessions j = s.gSessions j :=
  Function.update_of_ne h ..

theorem sessionFind_some {sessionId : ℤ} {i : ℕ} (h : sessionFind s sessionId = some i) :
    i < sessionMax ∧ (s.gSessions i).inUse = true ∧ (s.gSessions i).id = sessionId := by
  have hfound := List.find?_some h
  rw [Bool.and_eq_true, decide_eq_true_eq] at hfound
  exact ⟨List.mem_range.mp (List.mem_of_find?_eq_some h), hfound⟩

/-- `session_create` fails, or fills the first free entry. -/
theorem sessionCreate_cases (leaderPid : UInt32) :
    sessionCreate s leaderPid = (s.countInvalid, -1) ∨
      ∃ i < sessionMax, (s.gSessions i).inUse = false ∧ sessionCreate s leaderPid =
        (s.setEntry i ⟨true, i + 1, leaderPid, -1⟩, (i : ℤ) + 1) := by
  rw [sessionCreate]
  rcases hfind : (List.range sessionMax).find? fun i => !(s.gSessions i).inUse with _ | i
  · exact Or.inl rfl
  · have hfree := List.find?_some hfind
    rw [Bool.not_eq_true'] at hfree
    exact Or.inr ⟨i, List.mem_range.mp (List.mem_of_find?_eq_some hfind), hfree, rfl⟩

/-- `session_set_controlling_pty` fails, or stores a valid PTY in an entry in use. -/
theorem sessionSetControllingPty_cases (sessionId ptyId : ℤ) :
    sessionSetControllingPty s p sessionId ptyId = (s.countInvalid, false) ∨
      ∃ i < sessionMax, (s.gSessions i).inUse = true ∧ ptyIsValid p ptyId = true ∧
        sessionSetControllingPty s p sessionId ptyId =
          (s.setEntry i { s.gSessions i with controllingPty := ptyId }, true) := by
  rw [sessionSetControllingPty]
  cases hfind : sessionFind s sessionId with
  | none => exact Or.inl rfl
  | some i =>
    obtain ⟨hi, huse, -⟩ := sessionFind_some hfind
    by_cases hvalid : ptyIsValid p ptyId = true
    · refine Or.inr ⟨i, hi, huse, hvalid, ?_⟩
      dsimp only
      rw [if_pos hvalid]
      rfl
    · left
      dsimp only
      rw [if_neg hvalid]
      rfl

/-- `session_set_active` fails, or makes an id active that is in use. -/
theorem sessionSetActive_cases (sessionId : ℤ) :
    sessionSetActive s sessionId = (s.countInvalid, false) ∨
      ∃ i < sessionMax, (s.gSessions i).inUse = true ∧ (s.gSessions i).id = sessionId ∧
        sessionSetActive s sessionId = ({ s with gActiveSessionId := sessionId }, true) := by
  rw [sessionSetActive]
  cases hfind : sessionFind s sessionId with
  | none => exact Or.inl rfl
  | some i =>
    obtain ⟨hi, huse, hid⟩ := sessionFind_some hfind
    exact Or.inr ⟨i, hi, huse, hid, rfl⟩

end

/-! ## The invariant -/

/-- The tables agree. The invariant is about the entries, and all that is promised of ids and of
the active session follows from it. -/
structure SessionState.Ok (s : SessionState) : Prop where
  /-- a session in use has the id of its entry -/
  id : ∀ i < sessionMax, (s.sessions.gSessions i).inUse = true →
    (s.sessions.gSessions i).id = i + 1
  /-- and no PTY or a valid one -/
  controlling : ∀ i < sessionMax, (s.sessions.gSessions i).inUse = true →
    (s.sessions.gSessions i).controllingPty = -1 ∨
      ptyIsValid s.ptys (s.sessions.gSessions i).controllingPty = true
  /-- the active session is in use -/
  active : s.sessions.gActiveSessionId = -1 ∨ ∃ i < sessionMax,
    (s.sessions.gSessions i).inUse = true ∧
      (s.sessions.gSessions i).id = s.sessions.gActiveSessionId
  /-- so is every session that was created -/
  created : ∀ id ∈ s.created, ∃ i < sessionMax,
    (s.sessions.gSessions i).inUse = true ∧ id = (i : ℤ) + 1
  /-- and no two had one id -/
  nodup : s.created.Nodup

/-- A PTY that is handed out stays handed out. -/
theorem ptyIsValid_ptyAlloc {p : Ptys} {ptyId : ℤ} (h : ptyIsValid p ptyId = true) :
    ptyIsValid (ptyAlloc p).1 ptyId = true := by
  obtain ⟨i, hi, rfl, halloc⟩ := ptyIsValid_iff.mp h
  rcases ptyAlloc_cases p with ⟨heq, -⟩ | ⟨j, -, hfree, heq⟩
  · rw [heq]
    exact h
  · have hne : i ≠ j := by
      rintro rfl
      exact Bool.false_ne_true (hfree.symm.trans halloc)
    rw [heq]
    refine ptyIsValid_iff.mpr ⟨i, hi, rfl, ?_⟩
    rw [Ptys.gPtys_setSlot_ne _ hne, halloc]

namespace SessionState.Ok

variable {s : SessionState}

theorem start : Ok ⟨sessionInit, ptyInit, []⟩ where
  id := fun _ _ h => absurd h Bool.false_ne_true
  controlling := fun _ _ h => absurd h Bool.false_ne_true
  active := Or.inl rfl
  created := fun _ h => absurd h List.not_mem_nil
  nodup := List.nodup_nil

/-- A call that fails. -/
theorem countInvalid (h : s.Ok) : Ok { s with sessions := s.sessions.countInvalid } :=
  ⟨h.id, h.controlling, h.active, h.created, h.nodup⟩

theorem ptyAlloc (h : s.Ok) : Ok { s with ptys := (WaluOs.ptyAlloc s.ptys).1 } :=
  { h with controlling := fun i hi huse => (h.controlling i hi huse).imp_right ptyIsValid_ptyAlloc }

/-- An entry changes its PTY to a valid one, and nothing else. -/
theorem setPty (h : s.Ok) (i : ℕ) {ptyId : ℤ} (hvalid : ptyIsValid s.ptys ptyId = true) :
    Ok { s with sessions :=
      s.sessions.setEntry i { s.sessions.gSessions i with controllingPty := ptyId } } := by
  set u := s.sessions.setEntry i { s.sessions.gSessions i with controllingPty := ptyId } with hu
  -- the use and the id of every entry are as they were
  have hfields : ∀ j, (u.gSessions j).inUse = (s.sessions.gSessions j).inUse ∧
      (u.gSessions j).id = (s.sessions.gSessions j).id := by
    intro j
    by_cases hj : j = i
    · rw [hj, hu, Sessions.gSessions_setEntry_self]
      exact ⟨rfl, rfl⟩
    · rw [hu, Sessions.gSessions_setEntry_ne _ hj]
      exact ⟨rfl, rfl⟩
  constructor
  · intro j hj hjuse
    exact (hfields j).2.trans (h.id j hj ((hfields j).1.symm.trans hjuse))
  · intro j hj hjuse
    by_cases hji : j = i
    · right
      rw [hji, hu, Sessions.gSessions_setEntry_self]
      exact hvalid
    · rw [hu, Sessions.gSessions_setEntry_ne _ hji]
      exact h.controlling j hj ((hfields j).1.symm.trans hjuse)
  · refine h.active.imp_right ?_
    rintro ⟨j, hj, hjuse, hid⟩
    exact ⟨j, hj, (hfields j).1.trans hjuse, (hfields j).2.trans hid⟩
  · intro id hid
    obtain ⟨j, hj, hjuse, heq⟩ := h.created id hid
    exact ⟨j, hj, (hfields j).1.trans hjuse, heq⟩
  · exact h.nodup

/-- A free entry is taken into use. Its id is made of its index, so it is the id of no other
entry, and it has no PTY yet. -/
theorem fill (h : s.Ok) {i : ℕ} (hi : i < sessionMax)
    (hfree : (s.sessions.gSessions i).inUse = false) (leaderPid : UInt32) :
    Ok ⟨s.sessions.setEntry i ⟨true, i + 1, leaderPid, -1⟩, s.ptys, ((i : ℤ) + 1) :: s.created⟩ := by
  set u := s.sessions.setEntry i ⟨true, i + 1, leaderPid, -1⟩ with hu
  have hself : u.gSessions i = ⟨true, i + 1, leaderPid, -1⟩ := Sessions.gSessions_setEntry_self ..
  -- every other entry stays as it is, and one in use is another one
  have hother : ∀ j, j ≠ i → u.gSessions j = s.sessions.gSessions j := fun j hj =>
    Sessions.gSessions_setEntry_ne _ hj _
  have hused : ∀ j, (s.sessions.gSessions j).inUse = true → j ≠ i := by
    rintro j hjuse rfl
    exact Bool.false_ne_true (hfree.symm.trans hjuse)
  constructor
  · intro j hj hjuse
    by_cases hji : j = i
    · rw [hji, hself]
    · have heq := hother j hji
      dsimp only at hjuse ⊢
      rw [heq] at hjuse ⊢
      exact h.id j hj hjuse
  · intro j hj hjuse
    by_cases hji : j = i
    · left
      rw [hji, hself]
    · have heq := hother j hji
      dsimp only at hjuse ⊢
      rw [heq] at hjuse ⊢
      exact h.controlling j hj hjuse
  · refine h.active.imp_right ?_
    rintro ⟨j, hj, hjuse, hid⟩
    refine ⟨j, hj, ?_⟩
    dsimp only
    rw [hother j (hused j hjuse)]
    exact ⟨hjuse, hid⟩
  · intro id hid
    rcases List.mem_cons.mp hid with rfl | hid
    · exact ⟨i, hi, congrArg SessionEntry.inUse hself, rfl⟩
    · obtain ⟨j, hj, hjuse, heq⟩ := h.created id hid
      refine ⟨j, hj, ?_, heq⟩
      dsimp only
      rw [hother j (hused j hjuse)]
      exact hjuse
  · refine List.nodup_cons.mpr ⟨fun hmem => ?_, h.nodup⟩
    -- the id would be that of an entry in use, and entry `i` is free
    obtain ⟨j, -, hjuse, heq⟩ := h.created _ hmem
    obtain rfl : i = j := by omega
    exact hused i hjuse rfl

/-- **One call.** -/
theorem step (h : s.Ok) (op : SessionOp) : (sessionStep s op).Ok := by
  cases op with
  | ptyAlloc => exact h.ptyAlloc
  | create leaderPid =>
    rw [sessionStep, grant]
    rcases sessionCreate_cases (s := s.sessions) leaderPid with heq | ⟨i, hi, hfree, heq⟩
    · rw [heq, if_pos rfl]
      exact h.countInvalid
    · have hne : (i : ℤ) + 1 ≠ -1 := by omega
      rw [heq, if_neg hne]
      exact h.fill hi hfree leaderPid
  | setControllingPty sessionId ptyId =>
    rw [sessionStep]
    rcases sessionSetControllingPty_cases (s := s.sessions) (p := s.ptys) sessionId ptyId with
      heq | ⟨i, -, -, hvalid, heq⟩
    · rw [heq]
      exact h.countInvalid
    · rw [heq]
      exact h.setPty i hvalid
  | setActive sessionId =>
    rw [sessionStep]
    rcases sessionSetActive_cases (s := s.sessions) sessionId with heq | ⟨i, hi, huse, hid, heq⟩
    · rw [heq]
      exact h.countInvalid
    · rw [heq]
      exact { h with active := Or.inr ⟨i, hi, huse, hid⟩ }

theorem run (ops : List SessionOp) : (sessionRun ops).Ok :=
  List.foldlRecOn ops sessionStep start fun _ hs op _ => hs.step op

/-- The PTY of the active session. -/
theorem activePty (h : s.Ok) :
    sessionActivePty s.sessions = -1 ∨ ptyIsValid s.ptys (sessionActivePty s.sessions) = true := by
  rw [sessionActivePty]
  cases hfind : sessionFind s.sessions s.sessions.gActiveSessionId with
  | none => exact Or.inl rfl
  | some i =>
    obtain ⟨hi, huse, -⟩ := sessionFind_some hfind
    exact h.controlling i hi huse

end SessionState.Ok

/-! ## What the shell reads -/

/-- The PTY loop of `shell_poll`, begun in the first state, calls `pty_slave_read` in the second
one. Between two reads a command may have been executed, which may have changed the tables. -/
inductive PtyReads (ptyId : ℤ) : Sys → Sys → Prop where
  /-- the first round -/
  | first (s : Sys) : PtyReads ptyId s s
  /-- a round after one that has read something -/
  | next {s t : Sys} : (ptySlaveRead s.ptys ptyId true 128).2 ≠ [] →
      PtyReads ptyId ((ptySlaveRead s.ptys ptyId true 128).2.foldl shellByte
        { s with ptys := (ptySlaveRead s.ptys ptyId true 128).1 }) t →
      PtyReads ptyId s t

/-- `shell_poll`, called in the first state, reads PTY `ptyId` in the second one. The id was
looked up once, before the first read. -/
structure ShellReads (s : Sys) (ptyId : ℤ) (t : Sys) : Prop where
  /-- the PTY of the active session -/
  active : ptyId = sessionActivePty (ttyPollInput s).sessions
  /-- there is one -/
  some : 0 ≤ ptyId
  /-- a round of the loop -/
  reads : PtyReads ptyId (ttyPollInput s) t

/-- The sessions are the same, and no PTY has been taken back. PTYs may have been handed out. -/
structure KeepsTables (s s' : Sys) : Prop where
  /-- the session table -/
  sessions : s'.sessions = s.sessions
  /-- the PTYs handed out -/
  valid : ∀ ptyId, ptyIsValid s.ptys ptyId = true → ptyIsValid s'.ptys ptyId = true

namespace KeepsTables

variable {s s₁ s₂ : Sys}

theorem of_eq (hsessions : s₁.sessions = s.sessions) (hptys : s₁.ptys = s.ptys) :
    KeepsTables s s₁ :=
  ⟨hsessions, fun _ h => hptys ▸ h⟩

theorem trans (h₁ : KeepsTables s s₁) (h₂ : KeepsTables s₁ s₂) : KeepsTables s s₂ :=
  ⟨h₂.sessions.trans h₁.sessions, fun i hi => h₂.valid i (h₁.valid i hi)⟩

theorem emit (h : KeepsTables s s₁) (cs : List Call) : KeepsTables s (s₁.emit cs) :=
  ⟨h.sessions, h.valid⟩

end KeepsTables

theorem ttyReceive_keepsTables (s : Sys) (byte : UInt8) : KeepsTables s (ttyReceive s byte) := by
  have hframe := ttyReceive_receiveFrame s byte
  exact ⟨hframe.sessions, fun i hi => (hframe.valid i).trans hi⟩

theorem ttyPollLoop_keepsTables (fuel : ℕ) : ∀ s : Sys, KeepsTables s (ttyPollLoop fuel s) := by
  induction fuel with
  | zero => exact fun _ => .of_eq rfl rfl
  | succ fuel ih =>
    intro s
    rw [ttyPollLoop]
    cases keyboardPopChar s.kbd with
    | mk kbd popped =>
      cases popped with
      | none => exact .of_eq rfl rfl
      | some byte =>
        have hpop : KeepsTables s { s with kbd := kbd } := .of_eq rfl rfl
        exact (hpop.trans (ttyReceive_keepsTables _ byte)).trans (ih _)

/-- Reading a PTY empty. -/
theorem ptyIsValid_drainPty (ptyId : ℤ) (chunk fuel : ℕ) (i : ℤ) :
    ∀ p : Ptys, ptyIsValid (drainPty ptyId chunk fuel p).1 i = ptyIsValid p i := by
  induction fuel with
  | zero => exact fun _ => rfl
  | succ fuel ih =>
    intro p
    have hread : ptyIsValid (ptySlaveRead p ptyId true chunk).1 i = ptyIsValid p i :=
      ptyIsValid_ptyRead ..
    rw [drainPty]
    dsimp only
    split
    · exact hread
    · exact (ih _).trans hread

theorem drainActivePty_keepsTables (s : Sys) : KeepsTables s (drainActivePty s) := by
  rw [drainActivePty]
  split
  · exact .of_eq rfl rfl
  · exact ⟨rfl, fun i hi => (ptyIsValid_drainPty ..).trans hi⟩

/-- The PTY calls of `cmd_selftest` take a new PTY. -/
theorem selftestPtys_valid {p : Ptys} {i : ℤ} (h : ptyIsValid p i = true) :
    ptyIsValid (selftestPtys p) i = true := by
  rw [selftestPtys]
  refine (ptyIsValid_ptyWrite .m2s _ (-1) i _).trans ((ptyIsValid_drainPty ..).trans ?_)
  exact (ptyIsValid_ptyWrite .m2s _ _ i _).trans (ptyIsValid_ptyAlloc h)

theorem cmdSelftest_keepsTables (s : Sys) : KeepsTables s (cmdSelftest s) := by
  obtain ⟨cs, -, heq⟩ := cmdSelftest_eq s
  rw [heq]
  split
  · exact KeepsTables.emit (.of_eq rfl rfl) cs
  · have hptys : KeepsTables s { s with ptys := selftestPtys s.ptys } :=
      ⟨rfl, fun _ hi => selftestPtys_valid hi⟩
    have htyped := List.foldlRecOn (motive := KeepsTables s)
      (List.replicate 899 0x78 ++ [0x0A]) ttyReceive hptys
      fun u h b _ => h.trans (ttyReceive_keepsTables u b)
    exact (htyped.trans (drainActivePty_keepsTables _)).emit cs

theorem executeCommand_keepsTables (s : Sys) (line : List UInt8) :
    KeepsTables s (executeCommand s line) := by
  by_cases hself : IsSelftest line
  · have hpush : KeepsTables s ({ s with rustHistoryCount := s.rustHistoryCount + 1 }.emit
        [.rustHistoryPush (text "selftest")]) := .of_eq rfl rfl
    rw [executeCommand_selftest s hself]
    exact hpush.trans (cmdSelftest_keepsTables _)
  · have hprints := executeCommand_prints s hself
    exact .of_eq hprints.frame.sessions hprints.ptys

theorem shellByte_keepsTables (s : Sys) (c : UInt8) : KeepsTables s (shellByte s c) := by
  rw [shellByte]
  dsimp only
  split_ifs
  · exact .of_eq rfl rfl
  · exact .of_eq rfl rfl
  · exact .of_eq rfl rfl
  · refine KeepsTables.trans (.trans ?_ (executeCommand_keepsTables _ _)) (.of_eq rfl rfl)
    exact .of_eq rfl rfl
  · exact .of_eq rfl rfl
  · exact .of_eq rfl rfl
  · exact .of_eq rfl rfl
  · exact .of_eq rfl rfl

/-- What is valid before the loop is valid at every read. -/
theorem PtyReads.keepsTables {ptyId : ℤ} {s t : Sys} (h : PtyReads ptyId s t) :
    KeepsTables s t := by
  induction h with
  | first s => exact .of_eq rfl rfl
  | @next s t _ _ ih =>
    have hread : KeepsTables s { s with ptys := (ptySlaveRead s.ptys ptyId true 128).1 } :=
      ⟨rfl, fun i hi => (ptyIsValid_ptyRead .m2s s.ptys ptyId i true 128).trans hi⟩
    have hchunk := List.foldlRecOn (motive := KeepsTables s)
      (ptySlaveRead s.ptys ptyId true 128).2 shellByte hread
      fun u h c _ => h.trans (shellByte_keepsTables u c)
    exact hchunk.trans ih

/-- A read of a valid PTY is no invalid operation. -/
theorem ptySlaveRead_valid {p : Ptys} {ptyId : ℤ} (h : ptyIsValid p ptyId = true) (len : ℕ) :
    (ptySlaveRead p ptyId true len).1.gPtyInvalidOps = p.gPtyInvalidOps := by
  rw [ptySlaveRead, ptyRead, h]
  rfl

/-! ## The theorem -/

/-- What holds of the tables in a state that calls lead to, said in the words of their users: ids
are unique and in range, and whatever is looked up for the active session is there. -/
structure SessionState.Sound (s : SessionState) : Prop where
  /-- no id is given twice -/
  distinct : s.created.Nodup
  /-- they are 1 to 16 -/
  range : ∀ id ∈ s.created, 1 ≤ id ∧ id ≤ 16
  /-- the active id is that of a session in use -/
  active : s.sessions.gActiveSessionId = -1 ∨ ∃ i < sessionMax,
    (s.sessions.gSessions i).inUse = true ∧
      (s.sessions.gSessions i).id = s.sessions.gActiveSessionId
  /-- a session in use has no PTY or a valid one -/
  controlling : ∀ i < sessionMax, (s.sessions.gSessions i).inUse = true →
    (s.sessions.gSessions i).controllingPty = -1 ∨
      ptyIsValid s.ptys (s.sessions.gSessions i).controllingPty = true
  /-- so the active PTY is valid, if there is one -/
  activePty : sessionActivePty s.sessions = -1 ∨
    ptyIsValid s.ptys (sessionActivePty s.sessions) = true
  /-- and the reads of `shell_poll` are valid operations -/
  reads : ∀ sys t ptyId, sys.sessions = s.sessions → sys.ptys = s.ptys →
    ShellReads sys ptyId t →
      (ptySlaveRead t.ptys ptyId true 128).1.gPtyInvalidOps = t.ptys.gPtyInvalidOps

/-- What a failing call leaves: one more invalid operation is counted, and the tables are as they
were. -/
structure SessionState.FailsCleanly (s : SessionState) : Prop where
  create : ∀ leaderPid, (sessionCreate s.sessions leaderPid).2 = -1 →
    (sessionCreate s.sessions leaderPid).1 = s.sessions.countInvalid
  setControllingPty : ∀ sessionId ptyId,
    (sessionSetControllingPty s.sessions s.ptys sessionId ptyId).2 = false →
      (sessionSetControllingPty s.sessions s.ptys sessionId ptyId).1 = s.sessions.countInvalid
  setActive : ∀ sessionId, (sessionSetActive s.sessions sessionId).2 = false →
    (sessionSetActive s.sessions sessionId).1 = s.sessions.countInvalid

theorem SessionState.Ok.reads {s : SessionState} (h : s.Ok) {sys t : Sys} {ptyId : ℤ}
    (hsessions : sys.sessions = s.sessions) (hptys : sys.ptys = s.ptys)
    (hreads : ShellReads sys ptyId t) : ptyIsValid t.ptys ptyId = true := by
  have hpoll : KeepsTables sys (ttyPollInput sys) := ttyPollLoop_keepsTables _ sys
  have hactive : ptyId = sessionActivePty s.sessions := by
    rw [hreads.active, hpoll.sessions, hsessions]
  have hvalid : ptyIsValid s.ptys ptyId = true := by
    rcases h.activePty with hnone | hvalid
    · have hsome := hreads.some
      rw [hactive, hnone] at hsome
      exact absurd hsome (by decide)
    · rw [hactive]
      exact hvalid
  rw [← hptys] at hvalid
  exact hreads.reads.keepsTables.valid ptyId (hpoll.valid ptyId hvalid)

theorem SessionState.failsCleanly (s : SessionState) : s.FailsCleanly := by
  refine ⟨fun leaderPid hfail => ?_, fun sessionId ptyId hfail => ?_, fun sessionId hfail => ?_⟩
  · rcases sessionCreate_cases (s := s.sessions) leaderPid with heq | ⟨i, -, -, heq⟩
    · rw [heq]
    · rw [heq] at hfail
      omega
  · rcases sessionSetControllingPty_cases (s := s.sessions) (p := s.ptys) sessionId ptyId with
      heq | ⟨i, -, -, -, heq⟩
    · rw [heq]
    · rw [heq] at hfail
      exact absurd hfail.symm Bool.false_ne_true
  · rcases sessionSetActive_cases (s := s.sessions) sessionId with heq | ⟨i, -, -, -, heq⟩
    · rw [heq]
    · rw [heq] at hfail
      exact absurd hfail.symm Bool.false_ne_true

/-- **The tables agree after any calls**, and a call that fails only counts itself. The arguments
are any numbers: an id that is not valid is refused before anything is written. -/
theorem sessionRun_sound (ops : List SessionOp) :
    (sessionRun ops).Sound ∧ (sessionRun ops).FailsCleanly := by
  have h := SessionState.Ok.run ops
  refine ⟨⟨h.nodup, fun id hid => ?_, h.active, h.controlling, h.activePty, ?_⟩,
    SessionState.failsCleanly _⟩
  · obtain ⟨i, hi, -, rfl⟩ := h.created id hid
    have hmax : i < 16 := hi
    omega
  · intro sys t ptyId hsessions hptys hreads
    exact ptySlaveRead_valid (h.reads hsessions hptys hreads) 128

end WaluOs
