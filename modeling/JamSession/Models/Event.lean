import JamSession.Controllers.Lookup
import JamSession.Library.Binade
import JamSession.Models.Foundation

/-! `Event`, its encoder `toFireObj` and what `fromFireObj` does before its first lookup: the
casts, the texts of the time and of the location, and the ways this part can end. -/

namespace JamSession

/-- An `Error` that `fat` carries: of a user lookup, or of a query. -/
inductive BackendError
  | lookup (err : ManErr)
  | query

inductive FireError
  | noData
  | incorrectFormat
  | fat (err : BackendError)
  | stringDecode

structure CLLocation where
  latitude : Double
  longitude : Double

variable [UIKit] [Foundation]

structure Event where
  title : String
  eventTime : Foundation.Date
  location : CLLocation
  creator : User
  instruments : String
  description : String
  attending : List User

/-- `split(separator: ",")`, which leaves out empty parts. -/
def split (s : String) : List String :=
  (((Foundation.characters s).splitOn ",").filter (· ≠ [])).map String.join

/-- `binade`, which is not a number for what is not finite. -/
def Double.binade : Double → Double
  | .finite x => .finite (Binade.binade x)
  | .infinite _ | .nan => .nan

namespace Event

/-- The text of a location. -/
def locationText (location : CLLocation) : String :=
  let long := location.longitude.binade
  let lat := location.latitude.binade
  Foundation.printDouble lat ++ "," ++ Foundation.printDouble long

def toFireObj (e : Event) : Dict
  | "title" => some (.string e.title)
  | "eventTime" => some (.string (Foundation.stringFrom e.eventTime))
  | "location" => some (.string (locationText e.location))
  | "creator" => some (.string e.creator.uuid)
  | "description" => some (.string e.description)
  | "attending" => some (.strings (e.attending.map (·.uuid)))
  | "instruments" => some (.string e.instruments)
  | _ => none

/-- The seven fields of a document, with the types that `fromFireObj` casts them to. -/
structure Texts where
  title : String
  eventTime : String
  locationn : String
  creatorId : String
  description : String
  attendings : List String
  instruments : String

def casts (s : Dict) : Option Texts := do
  let title ← s.string "title"
  let eventTime ← s.string "eventTime"
  let locationn ← s.string "location"
  let creatorId ← s.string "creator"
  let description ← s.string "description"
  let attendings ← s.strings "attending"
  let instruments ← s.string "instruments"
  return ⟨title, eventTime, locationn, creatorId, description, attendings, instruments⟩

/-- The values that the callbacks of `fromFireObj` capture. -/
structure Fields where
  title : String
  time : Option Foundation.Date
  location : CLLocation
  creatorId : String
  description : String
  attendings : List String
  instruments : String

/-- How the part before the lookups ends. An index out of range traps. -/
inductive Reading
  | failed (err : FireError)
  | trapped
  | read (f : Fields)

def readFields (s : Dict) : Reading :=
  match casts s with
  | none => .failed .incorrectFormat
  | some t =>
    let time := Foundation.dateFrom t.eventTime
    match split t.locationn with
    | lat :: long :: _ =>
      match Foundation.readDouble lat, Foundation.readDouble long with
      | some lat, some long => .read
          ⟨t.title, time, ⟨lat, long⟩, t.creatorId, t.description, t.attendings, t.instruments⟩
      | _, _ => .failed .stringDecode
    | _ => .trapped

/-- The fields of an encoded event. -/
theorem casts_toFireObj (e : Event) : casts e.toFireObj = some
    ⟨e.title, Foundation.stringFrom e.eventTime, locationText e.location, e.creator.uuid,
      e.description, e.attending.map (·.uuid), e.instruments⟩ := by
  have hattending : e.toFireObj.strings "attending" = some (e.attending.map (·.uuid)) :=
    Value.asStrings_strings _
  simp only [casts, hattending]
  rfl

end Event

end JamSession
