import WaluOs.CStrings

/-!
# The userland programs

What `walud`, `authd` and `storaged` have in common: the log on the standard error, and
literals that are printed.
-/

namespace WaluOs

open CStrings

/-- A call of `log_info` or `log_error`. -/
structure LogLine : Type where
  /-- `level` -/
  level : List UInt8
  /-- `component` -/
  component : List UInt8
  /-- `message` -/
  message : List UInt8
  deriving DecidableEq, Repr

/-- `log_info` -/
def logInfo (component message : String) : LogLine := ⟨lit "info", lit component, lit message⟩

/-- `log_error` -/
def logError (component message : String) : LogLine := ⟨lit "error", lit component, lit message⟩

/-- A literal, printed by `puts`. -/
def putsLine (s : String) : List UInt8 := lit s ++ [0x0A]

end WaluOs
