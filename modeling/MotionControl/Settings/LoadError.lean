import MotionControl.Settings.Check

/-!
# Errors of loading

Why settings could not be loaded. A settings file that is well-formed can still be refused for the
settings it holds.
-/

namespace MotionControl

/-- Why settings could not be loaded. -/
inductive LoadError where
  /-- the text is not well-formed, or holds a wrong type of value or an unknown key -/
  | toml
  /-- a pin is not written as pins are -/
  | invalidPin
  /-- an axis belongs to no actuator, or two axes to the same one -/
  | unknownAxis
  /-- the settings are not valid -/
  | invalid (cause : SettingsError)
  /-- the bytes are cut short or corrupt -/
  | decode
  /-- the bytes are of another version -/
  | versionMismatch
  /-- there is nothing to load from -/
  | notFound
  deriving DecidableEq, Repr

namespace LoadError

/-- The name of the cause alone. -/
def name : LoadError → String
  | toml => "Toml"
  | invalidPin => "InvalidPin"
  | unknownAxis => "UnknownAxis"
  | invalid _ => "Invalid"
  | decode => "Decode"
  | versionMismatch => "VersionMismatch"
  | notFound => "NotFound"

/-- The whole cause. -/
def message : LoadError → String
  | invalid cause => "Invalid(" ++ cause.message ++ ")"
  | e => e.name

end LoadError

/-- The settings themselves, if they are valid. -/
def Settings.validated (s : Settings) : Except LoadError Settings :=
  match s.validate with
  | .ok _ => .ok s
  | .error e => .error (.invalid e)

end MotionControl
