import WaluOs.Pty

/-!
# Sessions

Sixteen entries; each in-use entry has an id, a leader and possibly a
controlling PTY. One session is active, and its PTY is where the shell reads.
-/

namespace WaluOs

/-- `SESSION_MAX` -/
abbrev sessionMax : ℕ := 16

/-- `session_entry_t`. No function gives an entry back, so one that is in use stays so until
`session_init`. -/
structure SessionEntry : Type where
  /-- handed out by `sessionCreate` -/
  inUse : Bool
  /-- the session id -/
  id : ℤ
  /-- the pid given at creation -/
  leaderPid : UInt32
  /-- the controlling PTY, or `-1` -/
  controllingPty : ℤ
  deriving DecidableEq, Repr

/-- The module's static variables. -/
structure Sessions : Type where
  /-- `g_sessions` -/
  gSessions : ℕ → SessionEntry
  /-- `g_active_session_id` -/
  gActiveSessionId : ℤ
  /-- `g_session_invalid_ops` -/
  gSessionInvalidOps : UInt64

/-- `session_init` -/
def sessionInit : Sessions := ⟨fun _ => ⟨false, 0, 0, 0⟩, -1, 0⟩

/-- `session_find`: the index of the entry, if there is one. -/
def sessionFind (s : Sessions) (sessionId : ℤ) : Option ℕ :=
  (List.range sessionMax).find? fun i =>
    (s.gSessions i).inUse && decide ((s.gSessions i).id = sessionId)

/-- `session_create` -/
def sessionCreate (s : Sessions) (leaderPid : UInt32) : Sessions × ℤ :=
  match (List.range sessionMax).find? fun i => !(s.gSessions i).inUse with
  | some i =>
    ({ s with gSessions := Function.update s.gSessions i ⟨true, i + 1, leaderPid, -1⟩ }, i + 1)
  | none => ({ s with gSessionInvalidOps := s.gSessionInvalidOps + 1 }, -1)

/-- `session_set_controlling_pty` -/
def sessionSetControllingPty (s : Sessions) (p : Ptys) (sessionId ptyId : ℤ) : Sessions × Bool :=
  match sessionFind s sessionId with
  | some i =>
    if ptyIsValid p ptyId then
      let entry := { s.gSessions i with controllingPty := ptyId }
      ({ s with gSessions := Function.update s.gSessions i entry }, true)
    else
      ({ s with gSessionInvalidOps := s.gSessionInvalidOps + 1 }, false)
  | none => ({ s with gSessionInvalidOps := s.gSessionInvalidOps + 1 }, false)

/-- `session_set_active` -/
def sessionSetActive (s : Sessions) (sessionId : ℤ) : Sessions × Bool :=
  match sessionFind s sessionId with
  | some _ => ({ s with gActiveSessionId := sessionId }, true)
  | none => ({ s with gSessionInvalidOps := s.gSessionInvalidOps + 1 }, false)

/-- `session_active_id` -/
def sessionActiveId (s : Sessions) : ℤ := s.gActiveSessionId

/-- `session_active_pty` -/
def sessionActivePty (s : Sessions) : ℤ :=
  match sessionFind s s.gActiveSessionId with
  | some i => (s.gSessions i).controllingPty
  | none => -1

end WaluOs
