import JamSession.Controllers.Lookup

/-! The friend operations of `UserController`. The objects an operation works on are the
session's `currentUser`, which every screen shares, and a copy of another user that a lookup
decoded for this call alone, so an operation is a function of the two values: it gives the
current user as the call leaves it and the writes in the order they are issued. Every caller
passes the current user itself as `receivingUser` of an accept and as `catcher` of an ignore,
and as `originatingUser` of a send. The `didSet` of `friends` only starts lookups for the
derived cache `userFriends`, which none of these functions reads. -/

namespace JamSession

variable [UIKit]

/-- The current user after a call, and the writes the call issued. -/
structure Outcome where
  currentUser : User
  writes : List Write

namespace User

def addFriend (u : User) (name : String) : User := { u with friends := u.friends ++ [name] }

/-- `friends.remove(at: friends.firstIndex(of: name))` -/
def removeFriend (u : User) (name : String) : User := { u with friends := u.friends.erase name }

def addBlocked (u : User) (name : String) : User := { u with blocked := u.blocked ++ [name] }

def addRequests (u : User) (rs : List FriendRequest) : User :=
  { u with friendRequests := u.friendRequests ++ rs }

/-- `friendRequests.remove(at: friendRequests.firstIndex(of: r))` -/
def removeRequest (u : User) (r : FriendRequest) : User :=
  { u with friendRequests := u.friendRequests.erase r }

end User

namespace UserController

/-- The pending requests of `user`, each under the key made of its own two fields. -/
def saveRequests (user : User) : List Write :=
  user.friendRequests.map fun req =>
    .setRequest user.uuid (requestTitle req.initialUser req.receivingUser) req.toFireObj

def saveUser (user : User) : List Write :=
  .setUser user.uuid user.toFireObj :: saveRequests user

def saveData (currentUser : User) : List Write :=
  .setUser currentUser.uuid currentUser.toFireObj :: saveRequests currentUser

def sendFriendRequest (originatingUser receivingUser : User) : List Write :=
  if receivingUser.username ∈ originatingUser.friends then []
  else [.setRequest receivingUser.uuid (requestTitle originatingUser.uuid receivingUser.uuid)
    (FriendRequest.mk originatingUser.uuid receivingUser.uuid).toFireObj]

def ignoreFriendRequest (origin catcher : User) : Outcome :=
  let ref := FriendRequest.mk origin.uuid catcher.uuid
  if ref ∈ catcher.friendRequests then
    let catcher := catcher.removeRequest ref
    ⟨catcher, .deleteRequest catcher.uuid (requestTitle origin.uuid catcher.uuid) ::
      saveData catcher⟩
  else ⟨catcher, []⟩

/-- The completion of `loadCurrentFriendRequests`; `none` is an answer without a snapshot. -/
def loadCurrentFriendRequests (user : User) : Option (List Dict) → User
  | none => user
  | some documents => user.addRequests (documents.filterMap FriendRequest.fromStringAny)

def unfriendUser (currentUser user : User) : Outcome :=
  if user.username ∈ currentUser.friends then
    let currentUser' := currentUser.removeFriend user.username
    if currentUser.username ∈ user.friends then
      ⟨currentUser', saveUser (user.removeFriend currentUser.username) ++ saveData currentUser'⟩
    else ⟨currentUser', []⟩
  else ⟨currentUser, []⟩

def blockUser (currentUser user : User) : Outcome :=
  let unfriended := if user.username ∈ currentUser.friends then unfriendUser currentUser user
    else ⟨currentUser, []⟩
  let blocking := unfriended.currentUser.addBlocked user.username
  ⟨blocking, unfriended.writes ++ saveData blocking⟩

/-- The delete that `acceptFriendRequest` issues; the rest of the function is its completion. -/
def acceptFriendRequest (originatingUser receivingUser : User) : Write :=
  .deleteRequest receivingUser.uuid (requestTitle originatingUser.uuid receivingUser.uuid)

/-- The completion of the delete. -/
def acceptDeleted (originatingUser receivingUser : User) (err : Bool) : Outcome :=
  if err then ⟨receivingUser, []⟩
  else if originatingUser.username ∈ receivingUser.friends then ⟨receivingUser, []⟩
  else
    let receiving := receivingUser.addFriend originatingUser.username
    let originating := originatingUser.addFriend receivingUser.username
    let ref := FriendRequest.mk originatingUser.uuid receivingUser.uuid
    if ref ∈ receiving.friendRequests then
      let receiving := receiving.removeRequest ref
      ⟨receiving, saveUser originating ++ saveData receiving⟩
    else ⟨receiving, saveUser originating⟩

/-- The user that `makeUserInDB` stores for a new account, with the placeholder texts of one
side of the merge conflict in `authUser`. -/
def makeUserInDB (username uuid : String) : User :=
  User.init username UIKit.blank "locatioin" "bio" "instrument" "seleccted experience" uuid [] []

/-! ### The branches of the operations -/

section Branches

variable {m o : User}

/-- A send stores the request and nothing else, and no request to a friend. -/
theorem mem_sendFriendRequest {w : Write} : w ∈ sendFriendRequest m o ↔
    o.username ∉ m.friends ∧ w = .setRequest o.uuid (requestTitle m.uuid o.uuid)
      (FriendRequest.mk m.uuid o.uuid).toFireObj := by
  unfold sendFriendRequest
  split_ifs with hf
  · simp [hf]
  · simp [hf]

theorem ignoreFriendRequest_pending (h : ⟨o.uuid, m.uuid⟩ ∈ m.friendRequests) :
    ignoreFriendRequest o m = ⟨m.removeRequest ⟨o.uuid, m.uuid⟩,
      .deleteRequest m.uuid (requestTitle o.uuid m.uuid) ::
        saveData (m.removeRequest ⟨o.uuid, m.uuid⟩)⟩ := by
  simp only [ignoreFriendRequest, if_pos h]
  rfl

theorem ignoreFriendRequest_missing (h : ⟨o.uuid, m.uuid⟩ ∉ m.friendRequests) :
    ignoreFriendRequest o m = ⟨m, []⟩ := by
  simp only [ignoreFriendRequest, if_neg h]

theorem unfriendUser_mutual (h : o.username ∈ m.friends) (h' : m.username ∈ o.friends) :
    unfriendUser m o = ⟨m.removeFriend o.username,
      saveUser (o.removeFriend m.username) ++ saveData (m.removeFriend o.username)⟩ := by
  simp only [unfriendUser, if_pos h, if_pos h']

theorem unfriendUser_oneSided (h : o.username ∈ m.friends) (h' : m.username ∉ o.friends) :
    unfriendUser m o = ⟨m.removeFriend o.username, []⟩ := by
  simp only [unfriendUser, if_pos h, if_neg h']

theorem unfriendUser_stranger (h : o.username ∉ m.friends) : unfriendUser m o = ⟨m, []⟩ := by
  simp only [unfriendUser, if_neg h]

/-- The nested `unfriendUser` has the same guard, so the outer test is redundant. -/
theorem blockUser_eq (m o : User) :
    blockUser m o = ⟨(unfriendUser m o).currentUser.addBlocked o.username,
      (unfriendUser m o).writes ++
        saveData ((unfriendUser m o).currentUser.addBlocked o.username)⟩ := by
  by_cases h : o.username ∈ m.friends
  · simp only [blockUser, if_pos h]
  · simp only [blockUser, if_neg h, unfriendUser_stranger h]

theorem acceptDeleted_err : acceptDeleted o m true = ⟨m, []⟩ := rfl

theorem acceptDeleted_friend (h : o.username ∈ m.friends) (err : Bool) :
    acceptDeleted o m err = ⟨m, []⟩ := by
  cases err <;> simp [acceptDeleted, h]

theorem acceptDeleted_pending (h : o.username ∉ m.friends)
    (hr : ⟨o.uuid, m.uuid⟩ ∈ m.friendRequests) :
    acceptDeleted o m false = ⟨(m.addFriend o.username).removeRequest ⟨o.uuid, m.uuid⟩,
      saveUser (o.addFriend m.username) ++
        saveData ((m.addFriend o.username).removeRequest ⟨o.uuid, m.uuid⟩)⟩ := by
  have hr' : ⟨o.uuid, m.uuid⟩ ∈ (m.addFriend o.username).friendRequests := hr
  simp only [acceptDeleted, if_neg h, if_pos hr', Bool.false_eq_true, if_false]

theorem acceptDeleted_missing (h : o.username ∉ m.friends)
    (hr : ⟨o.uuid, m.uuid⟩ ∉ m.friendRequests) :
    acceptDeleted o m false = ⟨m.addFriend o.username, saveUser (o.addFriend m.username)⟩ := by
  have hr' : ⟨o.uuid, m.uuid⟩ ∉ (m.addFriend o.username).friendRequests := hr
  simp only [acceptDeleted, if_neg h, if_neg hr', Bool.false_eq_true, if_false]

end Branches

end UserController

end JamSession
