import MotionControl.Settings.Binary
import MotionControl.Settings.Document

/-!
# Loading settings

Settings are written by hand as text and may be kept in binary form as well. The text is preferred;
when it is missing or cannot be used, whatever is wrong with it, the bytes are taken.
-/

namespace MotionControl.Settings

/-- Settings from bytes, if there are any. -/
def loadBytes : Option (List UInt8) → Except LoadError Settings
  | some bytes => ofBytes bytes
  | none => .error .notFound

/-- Settings from text or bytes, whatever there is and can be used. -/
def load (text : Option String) (bytes : Option (List UInt8)) : Except LoadError Settings :=
  match text.map ofText with
  | some (.ok s) => .ok s
  | _ => loadBytes bytes

end MotionControl.Settings
