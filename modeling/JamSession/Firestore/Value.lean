import Mathlib.Data.List.Basic
import Mathlib.Data.Prod.Lex
import Mathlib.Data.Int.Order.Basic

/-! Values of Firestore documents and the conditional casts the decoders read them with.
A document is a `[String: Any]` dictionary: a total function with `none` at absent keys,
so that assigning a nil optional leaves the key out. Pictures pass through UIKit, whose
code is not part of the repository: `UIKit` names the image type, the data type, the two
conversions the program calls and the bundled blank picture, and assumes nothing. -/

namespace JamSession

/-- `UIImage`, `Data`, `jpegData(compressionQuality: 0.5)`, `UIImage(data:)` and
`UIImage(named: "blank")!`. -/
class UIKit where
  UIImage : Type
  Data : Type
  jpegData : UIImage → Option Data
  ofData : Data → Option UIImage
  blank : UIImage

/-- A `Timestamp` of Firestore: seconds, then nanoseconds. -/
abbrev Timestamp := ℤ ×ₗ ℤ

variable [UIKit]

/-- A field of a document. `other` stands for the values that every cast below rejects, told
apart by a number. -/
inductive Value
  | string (s : String)
  | data (d : UIKit.Data)
  | timestamp (t : Timestamp)
  | array (vs : List Value)
  | other (n : ℕ)

namespace Value

/-- `as? String` -/
def asString : Value → Option String
  | .string s => some s
  | _ => none

/-- `as? Data` -/
def asData : Value → Option UIKit.Data
  | .data d => some d
  | _ => none

/-- `as? Timestamp` -/
def asTimestamp : Value → Option Timestamp
  | .timestamp t => some t
  | _ => none

/-- `as? [String]`: every element is a string. -/
def asStrings : Value → Option (List String)
  | .array vs => vs.mapM asString
  | _ => none

/-- A `[String]` stored in a dictionary. -/
def strings (ss : List String) : Value := .array (ss.map .string)

@[simp] theorem asString_string (s : String) : asString (.string s) = some s := rfl

@[simp] theorem asData_data (d : UIKit.Data) : asData (.data d) = some d := rfl

@[simp] theorem asTimestamp_timestamp (t : Timestamp) : asTimestamp (.timestamp t) = some t := rfl

@[simp] theorem asStrings_strings (ss : List String) : asStrings (strings ss) = some ss := by
  rw [strings, asStrings]
  induction ss with
  | nil => rfl
  | cons s ss ih => simp [ih]

end Value

/-- `[String: Any]` -/
abbrev Dict := String → Option Value

namespace Dict

/-- `s[key] as? String` -/
def string (d : Dict) (key : String) : Option String := (d key).bind Value.asString

/-- `s[key] as? [String]` -/
def strings (d : Dict) (key : String) : Option (List String) := (d key).bind Value.asStrings

/-- `s[key] as? Data` -/
def data (d : Dict) (key : String) : Option UIKit.Data := (d key).bind Value.asData

/-- `s[key] as? Timestamp` -/
def timestamp (d : Dict) (key : String) : Option Timestamp := (d key).bind Value.asTimestamp

end Dict

end JamSession
