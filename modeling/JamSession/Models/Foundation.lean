import Mathlib.Data.List.Basic

/-! Dates and texts, whose code is not part of the repository: `Foundation` names what the codec
of events uses and assumes nothing, `Documented` is what it relies on. A finite double is read
back from its text, a text is plain ASCII without a comma, and the formatter writes days. -/

namespace JamSession

/-- The values of a `Double`; a finite one is a dyadic rational. -/
inductive Double
  | finite (x : Dyadic)
  | infinite (negative : Bool)
  | nan
  deriving DecidableEq

/-- `Date`, `string(from:)` and `date(from:)` of a `DateFormatter` with only `dateStyle` set, to
`.full`, the text of a `Double`, `Double(_:)` and the Characters of a text. -/
class Foundation where
  Date : Type
  stringFrom : Date → String
  dateFrom : String → Option Date
  printDouble : Double → String
  readDouble : String → Option Double
  characters : String → List String

open Foundation

/-- A printable ASCII character, which is a Character of its own wherever it stands. -/
def Printable (c : Char) : Prop := 32 ≤ c.toNat ∧ c.toNat ≤ 126

instance : DecidablePred Printable := fun _ => inferInstanceAs (Decidable (_ ∧ _))

/-- The documented behaviour of Foundation and of Swift's texts, with the calendar day of each
date in the formatter's time zone. -/
structure Documented [Foundation] {Day : Type*} (day : Date → Day) : Prop where
  string_day : ∀ t t', day t = day t' → stringFrom t = stringFrom t'
  date_string : ∀ t, ∃ t', dateFrom (stringFrom t) = some t' ∧ day t' = day t
  read_print : ∀ x, readDouble (printDouble (.finite x)) = some (.finite x)
  print_ne : ∀ x, printDouble x ≠ ""
  print_chars : ∀ x, ∀ c ∈ (printDouble x).toList, Printable c ∧ c ≠ ','
  chars_ascii : ∀ s : String, (∀ c ∈ s.toList, Printable c) →
    characters s = s.toList.map String.singleton

end JamSession
