import Mathlib.Data.String.Basic
import Mathlib.Logic.Function.Basic
import JamSession.Library.OrderedMap
import JamSession.Models.User

/-! The part of the Firestore database the friend operations use: the `Users` collection,
and below each user document its `friend_requests` collection. `setData` without merge
replaces the document's own fields and leaves its subcollections alone; a request
collection exists whether or not its user document does. -/

namespace JamSession

variable [UIKit]

structure Store where
  users : OrderedMap String Dict
  friendRequests : String → OrderedMap String Dict

/-- The writes of the friend operations. `receiver` is the uuid of the user document that
the request collection belongs to. -/
inductive Write
  | setUser (uuid : String) (dict : Dict)
  | setRequest (receiver title : String) (dict : Dict)
  | deleteRequest (receiver title : String)

namespace Store

def apply (s : Store) : Write → Store
  | .setUser uuid dict => { s with users := s.users.set uuid dict }
  | .setRequest receiver title dict => { s with
      friendRequests := Function.update s.friendRequests receiver
        ((s.friendRequests receiver).set title dict) }
  | .deleteRequest receiver title => { s with
      friendRequests := Function.update s.friendRequests receiver
        ((s.friendRequests receiver).erase title) }

def applyAll (s : Store) (ws : List Write) : Store := ws.foldl apply s

@[simp] theorem applyAll_nil (s : Store) : s.applyAll [] = s := rfl

@[simp] theorem applyAll_cons (s : Store) (w : Write) (ws : List Write) :
    s.applyAll (w :: ws) = (s.apply w).applyAll ws := rfl

theorem applyAll_append (s : Store) (ws ws' : List Write) :
    s.applyAll (ws ++ ws') = (s.applyAll ws).applyAll ws' := List.foldl_append

/-! ### What is stored about a user -/

/-- The `friends` field of the document of `uuid`, as a reader casts it. -/
def friends (s : Store) (uuid : String) : List String :=
  ((s.users.get? uuid).bind fun d => d.strings "friends").getD []

def blocked (s : Store) (uuid : String) : List String :=
  ((s.users.get? uuid).bind fun d => d.strings "blocked").getD []

def username (s : Store) (uuid : String) : Option String :=
  (s.users.get? uuid).bind fun d => d.string "username"

theorem friends_of_get? {s : Store} {uuid : String} {u : User}
    (h : s.users.get? uuid = some u.toFireObj) : s.friends uuid = u.friends := by
  simp [friends, h]

theorem blocked_of_get? {s : Store} {uuid : String} {u : User}
    (h : s.users.get? uuid = some u.toFireObj) : s.blocked uuid = u.blocked := by
  simp [blocked, h]

theorem username_of_get? {s : Store} {uuid : String} {u : User}
    (h : s.users.get? uuid = some u.toFireObj) : s.username uuid = some u.username := by
  simp [username, h]

theorem friends_congr {s s' : Store} (h : s'.users = s.users) : s'.friends = s.friends := by
  funext k
  rw [friends, friends, h]

theorem blocked_congr {s s' : Store} (h : s'.users = s.users) : s'.blocked = s.blocked := by
  funext k
  rw [blocked, blocked, h]

/-! ### One write -/

section Apply

variable (s : Store)

@[simp] theorem apply_setUser_friendRequests (uuid : String) (d : Dict) :
    (s.apply (.setUser uuid d)).friendRequests = s.friendRequests := rfl

@[simp] theorem apply_setRequest_users (r t : String) (d : Dict) :
    (s.apply (.setRequest r t d)).users = s.users := rfl

@[simp] theorem apply_deleteRequest_users (r t : String) :
    (s.apply (.deleteRequest r t)).users = s.users := rfl

theorem apply_setUser_get? (uuid : String) (d : Dict) (k : String) :
    (s.apply (.setUser uuid d)).users.get? k = if k = uuid then some d else s.users.get? k :=
  s.users.get?_set uuid d k

theorem apply_setUser_friends (uuid : String) (u : User) (k : String) :
    (s.apply (.setUser uuid u.toFireObj)).friends k = if k = uuid then u.friends else s.friends k := by
  unfold friends
  rw [apply_setUser_get?]
  split_ifs with h <;> simp

/-- A write of anything but the document of `k`. -/
theorem apply_friends_of_ne {w : Write} {k : String} (h : ∀ dict, w ≠ .setUser k dict) :
    (s.apply w).friends k = s.friends k := by
  cases w with
  | setUser uuid dict =>
    have hne : k ≠ uuid := fun he => h dict (by rw [he])
    unfold friends
    rw [apply_setUser_get?, if_neg hne]
  | setRequest receiver title dict => rfl
  | deleteRequest receiver title => rfl

theorem apply_setUser_blocked (uuid : String) (u : User) (k : String) :
    (s.apply (.setUser uuid u.toFireObj)).blocked k = if k = uuid then u.blocked else s.blocked k := by
  unfold blocked
  rw [apply_setUser_get?]
  split_ifs with h <;> simp

theorem apply_setUser_username (uuid : String) (u : User) (k : String) :
    (s.apply (.setUser uuid u.toFireObj)).username k = if k = uuid then some u.username else s.username k := by
  unfold username
  rw [apply_setUser_get?]
  split_ifs with h <;> simp

theorem apply_setRequest_get? (r t : String) (d : Dict) (k j : String) :
    ((s.apply (.setRequest r t d)).friendRequests k).get? j =
      if k = r ∧ j = t then some d else (s.friendRequests k).get? j := by
  simp only [apply]
  by_cases hk : k = r
  · subst hk
    simp [OrderedMap.get?_set]
  · simp [hk]

theorem apply_deleteRequest_get? (r t k j : String) :
    ((s.apply (.deleteRequest r t)).friendRequests k).get? j =
      if k = r ∧ j = t then none else (s.friendRequests k).get? j := by
  simp only [apply]
  by_cases hk : k = r
  · subst hk
    simp [OrderedMap.get?_erase]
  · simp [hk]

/-- A request that is stored after a write was stored before it, or is what it stores. -/
theorem request_of_apply {w : Write} {r t : String} {d : Dict}
    (h : ((s.apply w).friendRequests r).get? t = some d) :
    (s.friendRequests r).get? t = some d ∨ w = .setRequest r t d := by
  cases w with
  | setUser uuid dict => exact Or.inl h
  | setRequest receiver title dict =>
    rw [apply_setRequest_get?] at h
    split_ifs at h with hk
    · obtain ⟨rfl, rfl⟩ := hk
      exact Or.inr (by rw [Option.some.inj h])
    · exact Or.inl h
  | deleteRequest receiver title =>
    rw [apply_deleteRequest_get?] at h
    split_ifs at h
    exact Or.inl h

end Apply

end Store

end JamSession
