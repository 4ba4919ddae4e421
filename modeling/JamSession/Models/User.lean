import JamSession.Models.FriendRequest

/-! `User`, its encoder `toFireObj` and its decoder `fromStringAny`. A document holds every
field but the pending requests, which live in a collection of their own, so a decoded user
has none. The lists are compared by Swift's `==` on strings, usernames being taken up to
that equality; uuids are the ASCII identifiers of Firebase Auth. -/

namespace JamSession

variable [UIKit]

structure User where
  username : String
  profilePic : UIKit.UIImage
  uuid : String
  blocked : List String
  friends : List String
  location : String
  bio : Option String
  instrument : String
  friendRequests : List FriendRequest
  experienceLevel : String

namespace User

/-- The initializer, which takes a non-optional `bio` and leaves `friendRequests` empty. -/
def init (username : String) (profilePic : UIKit.UIImage) (location bio instrument
    experienceLevel UUID : String) (friends blocked : List String) : User where
  username := username
  profilePic := profilePic
  uuid := UUID
  blocked := blocked
  friends := friends
  location := location
  bio := some bio
  instrument := instrument
  friendRequests := []
  experienceLevel := experienceLevel

def toFireObj (u : User) : Dict
  | "username" => some (.string u.username)
  | "profilePic" => (UIKit.jpegData u.profilePic).map .data
  | "location" => some (.string u.location)
  | "bio" => u.bio.map .string
  | "uuid" => some (.string u.uuid)
  | "instrument" => some (.string u.instrument)
  | "blocked" => some (.strings u.blocked)
  | "friends" => some (.strings u.friends)
  | "experienceLevel" => some (.string u.experienceLevel)
  | _ => none

def fromStringAny (s : Dict) : Option User := do
  let bio ← s.string "bio"
  let experienceLevel ← s.string "experienceLevel"
  let friendsy ← s.strings "friends"
  let profilePic ← s.data "profilePic"
  let instrument ← s.string "instrument"
  let blocked ← s.strings "blocked"
  let location ← s.string "location"
  let username ← s.string "username"
  let uuid ← s.string "uuid"
  let pfp ← UIKit.ofData profilePic
  return init username pfp location bio instrument experienceLevel uuid friendsy blocked

/-! ### Fields of an encoded user -/

section Fields

variable (u : User)

@[simp] theorem toFireObj_username : u.toFireObj.string "username" = some u.username := rfl

@[simp] theorem toFireObj_uuid : u.toFireObj.string "uuid" = some u.uuid := rfl

@[simp] theorem toFireObj_friends : u.toFireObj.strings "friends" = some u.friends :=
  Value.asStrings_strings u.friends

@[simp] theorem toFireObj_blocked : u.toFireObj.strings "blocked" = some u.blocked :=
  Value.asStrings_strings u.blocked

@[simp] theorem toFireObj_location : u.toFireObj.string "location" = some u.location := rfl

@[simp] theorem toFireObj_instrument : u.toFireObj.string "instrument" = some u.instrument := rfl

@[simp] theorem toFireObj_experienceLevel :
    u.toFireObj.string "experienceLevel" = some u.experienceLevel := rfl

@[simp] theorem toFireObj_bio : u.toFireObj.string "bio" = u.bio := by
  cases h : u.bio <;> simp [Dict.string, toFireObj, h]

@[simp] theorem toFireObj_profilePic :
    u.toFireObj.data "profilePic" = UIKit.jpegData u.profilePic := by
  cases h : UIKit.jpegData u.profilePic <;> simp [Dict.data, toFireObj, h]

end Fields

/-- What a decoded copy of an encoded user has in common with it: everything but the
picture, which went through the codec, and the pending requests, which were not stored. -/
structure CopyOf (w u : User) : Prop where
  username : w.username = u.username
  uuid : w.uuid = u.uuid
  friends : w.friends = u.friends
  blocked : w.blocked = u.blocked
  location : w.location = u.location
  bio : w.bio = u.bio
  instrument : w.instrument = u.instrument
  experienceLevel : w.experienceLevel = u.experienceLevel
  friendRequests : w.friendRequests = []

/-- Decoding an encoded user. -/
theorem fromStringAny_toFireObj {u w : User} (h : fromStringAny u.toFireObj = some w) :
    w.CopyOf u := by
  simp only [fromStringAny, toFireObj_bio, toFireObj_experienceLevel, toFireObj_friends,
    toFireObj_profilePic, toFireObj_instrument, toFireObj_blocked, toFireObj_location,
    toFireObj_username, toFireObj_uuid, Option.bind_eq_bind, Option.bind_some,
    Option.bind_eq_some_iff, Option.pure_def, Option.some.injEq] at h
  obtain ⟨bio, hbio, data, -, pfp, -, rfl⟩ := h
  exact ⟨rfl, rfl, rfl, rfl, rfl, hbio.symm, rfl, rfl, rfl⟩

section Decoded

variable {d : Dict} {u : User}

/-- A decoded user has the username and the uuid of the document, and no pending requests. -/
theorem decoded (h : fromStringAny d = some u) : d.string "username" = some u.username ∧
    d.string "uuid" = some u.uuid ∧ u.friendRequests = [] := by
  simp only [fromStringAny, Option.bind_eq_bind, Option.bind_eq_some_iff, Option.pure_def,
    Option.some.injEq] at h
  obtain ⟨bio, -, experienceLevel, -, friends, -, profilePic, -, instrument, -, blocked, -,
    location, -, username, husername, uuid, huuid, pfp, -, rfl⟩ := h
  exact ⟨husername, huuid, rfl⟩

theorem username_of_fromStringAny (h : fromStringAny d = some u) :
    d.string "username" = some u.username := (decoded h).1

theorem uuid_of_fromStringAny (h : fromStringAny d = some u) :
    d.string "uuid" = some u.uuid := (decoded h).2.1

theorem friendRequests_of_fromStringAny (h : fromStringAny d = some u) :
    u.friendRequests = [] := (decoded h).2.2

end Decoded

end User

end JamSession
