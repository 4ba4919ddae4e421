import JamSession.Firestore.Value

/-! `FriendRequest`: the pair of uuids of a pending request, its document and the key the
document is stored under. -/

namespace JamSession

/-- `==` compares the two fields, so it is the equality of the structure. -/
structure FriendRequest where
  initialUser : String
  receivingUser : String
  deriving DecidableEq, Repr

/-- `"\(initialUser) to \(receivingUser)"`, the key of a request's document. -/
def requestTitle (initialUser receivingUser : String) : String :=
  initialUser ++ " to " ++ receivingUser

/-- In one collection, where the receiver is fixed, the key determines the sender. -/
theorem requestTitle_inj {a b r : String} : requestTitle a r = requestTitle b r ↔ a = b := by
  simp [requestTitle]

namespace FriendRequest

variable [UIKit]

def toFireObj (r : FriendRequest) : Dict
  | "sendingUser" => some (.string r.initialUser)
  | "receivingUser" => some (.string r.receivingUser)
  | _ => none

def fromStringAny (s : Dict) : Option FriendRequest := do
  let receivingUser ← s.string "receivingUser"
  let sendingUser ← s.string "sendingUser"
  return ⟨sendingUser, receivingUser⟩

@[simp] theorem fromStringAny_toFireObj (r : FriendRequest) :
    fromStringAny r.toFireObj = some r := rfl

end FriendRequest

end JamSession
