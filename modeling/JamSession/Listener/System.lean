import Mathlib.Data.List.Perm.Subperm
import JamSession.Library.Runs
import JamSession.Controllers.UserController

/-! The snapshot listeners of one client's `UserController`. Every assignment of `currentUser`
adds a listener on the requests of the user assigned, and none is ever removed. A listener
fires with the content at its start and again after every change of its collection; a firing
that is not empty starts a load for whoever is the current user by then, and the load appends
to the object that was current when it started. Firings, queries, answers and the deletes of
accepts are tasks, and any of them may be next.

`User` is a class, so an object keeps its identity under all assignments: the objects are
numbered. Writes arrive from all clients, the own one included; they are those of the friend
operations. The own ignore and the own accept are steps of their own, since they change the
requests in memory. Firestore compares whole documents to tell a change, which no function of
the program does, so that is a parameter. -/

namespace JamSession.Listener

open UserController

variable [UIKit]

inductive Task
  /-- A snapshot on its way to the closure of `didSet`. -/
  | fired (isEmpty : Bool)
  /-- The `getDocuments` of a load for an object, before and after its answer. -/
  | asked (o : ℕ)
  | answered (o : ℕ) (answer : Option (List Dict))
  /-- The delete of an accept of the object `o`, before and after its acknowledgement. -/
  | deleting (o : ℕ) (origin : User)
  | deleted (o : ℕ) (origin : User) (err : Bool)

structure State where
  store : Store
  objects : ℕ → User
  currentUser : Option ℕ
  listeners : List String
  tasks : List Task

namespace State

def add (s : State) (t : Task) : State := { s with tasks := s.tasks ++ [t] }

def drop (s : State) (i : ℕ) : State := { s with tasks := s.tasks.eraseIdx i }

def setObject (s : State) (o : ℕ) (u : User) : State :=
  { s with objects := Function.update s.objects o u }

@[simp]
theorem setObject_setObject (s : State) (o : ℕ) (u u' : User) :
    (s.setObject o u).setObject o u' = s.setObject o u' := by
  simp [setObject]

@[simp]
theorem setObject_self (s : State) (o : ℕ) : s.setObject o (s.objects o) = s := by
  simp [setObject]

@[simp]
theorem setObject_objects (s : State) (o : ℕ) (u : User) : (s.setObject o u).objects o = u := by
  simp [setObject]

theorem setObject_objects_of_ne {o o' : ℕ} (h : o' ≠ o) (s : State) (u : User) :
    (s.setObject o u).objects o' = s.objects o' := by
  simp [setObject, h]

/-- A snapshot of the requests of `uuid`, for each of the listeners on them. -/
def fire (s : State) (listeners : List String) (uuid : String) : State :=
  let isEmpty := (s.store.friendRequests uuid).entries.isEmpty
  { s with tasks := s.tasks ++ (listeners.filter (· = uuid)).map fun _ => .fired isEmpty }

end State

variable [DecidableEq Dict]

/-- A write left what is stored under a title as it was. -/
def unchanged : Option Dict → Option Dict → Bool
  | none, none => true
  | some d, some e => d = e
  | _, _ => false

namespace State

/-- The store after a write of the document under a title. Every change of the document is
reported, also one between documents that decode alike or not at all. -/
def change (s : State) (receiver title : String) (store : Store) : State :=
  let s' := { s with store := store }
  if unchanged ((s.store.friendRequests receiver).get? title)
      ((store.friendRequests receiver).get? title) then s'
  else s'.fire s.listeners receiver

def write (s : State) (w : Write) : State :=
  match w with
  | .setUser _ _ => { s with store := s.store.apply w }
  | .setRequest receiver title _ => s.change receiver title (s.store.apply w)
  | .deleteRequest receiver title => s.change receiver title (s.store.apply w)

def writeAll (s : State) (ws : List Write) : State := ws.foldl write s

end State

/-! ### The functions -/

/-- `currentUser = user`, with its `didSet`. -/
def assign (s : State) (o : ℕ) : State :=
  let uuid := (s.objects o).uuid
  { s with currentUser := some o, listeners := s.listeners ++ [uuid] }.fire [uuid] uuid

/-- `loadCurrentFriendRequests`, up to its query. -/
def load (s : State) : State :=
  match s.currentUser with
  | none => s
  | some o => s.add (.asked o)

/-- `ignoreFriendRequest` of the current user. -/
def ignore (s : State) (origin : User) : State :=
  match s.currentUser with
  | none => s
  | some o =>
    let out := ignoreFriendRequest origin (s.objects o)
    (s.setObject o out.currentUser).writeAll out.writes

/-- `acceptFriendRequest` for the current user, up to its delete. -/
def accept (s : State) (origin : User) : State :=
  match s.currentUser with
  | none => s
  | some o => s.add (.deleting o origin)

/-- `saveData` saves whoever is current. -/
def saveCurrent (s : State) : State :=
  match s.currentUser with
  | none => s
  | some o => s.writeAll (saveData (s.objects o))

/-- The completion of the delete, for the object that was current at the call. -/
def acceptDeleted (s : State) (o : ℕ) (origin : User) (err : Bool) : State :=
  let receiving := s.objects o
  if err then s
  else if origin.username ∈ receiving.friends then s
  else
    let friends := receiving.addFriend origin.username
    let s := (s.setObject o friends).writeAll (saveUser (origin.addFriend receiving.username))
    let ref := FriendRequest.mk origin.uuid receiving.uuid
    if ref ∈ receiving.friendRequests then saveCurrent (s.setObject o (friends.removeRequest ref))
    else s

/-! ### The transition function -/

inductive Action
  | assign (o : ℕ)
  | write (w : Write)
  | ignore (origin : User)
  | accept (origin : User)
  | advance (i : ℕ) (err : Bool)

/-- The next step of a task that was taken from the list. -/
def proceed (s : State) (err : Bool) : Task → State
  | .fired isEmpty => if isEmpty then s else load s
  | .asked o => s.add (.answered o (if err then none
      else some ((s.store.friendRequests (s.objects o).uuid).entries.map Prod.snd)))
  | .answered o answer => s.setObject o (loadCurrentFriendRequests (s.objects o) answer)
  | .deleting o origin =>
    if err then s.add (.deleted o origin true)
    else (s.write (acceptFriendRequest origin (s.objects o))).add (.deleted o origin false)
  | .deleted o origin err => acceptDeleted s o origin err

/-- The user that a lookup has fetched for an accept has no requests. -/
def step (s : State) : Action → State
  | .assign o => assign s o
  | .write w => s.write w
  | .ignore origin => ignore s origin
  | .accept origin => if origin.friendRequests = [] then accept s origin else s
  | .advance i err => match s.tasks[i]? with
    | some t => proceed (s.drop i) err t
    | none => s

/-- Any requests are stored; no user object has any, and none is current yet. -/
structure Initial (s : State) : Prop where
  objects : ∀ o, (s.objects o).friendRequests = []
  currentUser : s.currentUser = none
  listeners : s.listeners = []
  tasks : s.tasks = []

/-! ### The requests in memory and in the store -/

/-- The requests of the documents of `uuid` that decode, one for each. -/
def stored (s : State) (uuid : String) : List FriendRequest :=
  (s.store.friendRequests uuid).entries.filterMap fun e => FriendRequest.fromStringAny e.2

def memory (s : State) (o : ℕ) : List FriendRequest := (s.objects o).friendRequests

/-- The document under a title, as far as it decodes. -/
def content (s : Store) (receiver title : String) : Option (Option FriendRequest) :=
  ((s.friendRequests receiver).get? title).map FriendRequest.fromStringAny

/-! ### Writes -/

section Writes

variable (s : State)

/-- A write of a document is reported unless it leaves the document as it was. -/
theorem change_cases (receiver title : String) (store : Store) :
    unchanged ((s.store.friendRequests receiver).get? title)
        ((store.friendRequests receiver).get? title) = true ∧
      s.change receiver title store = { s with store := store } ∨
    unchanged ((s.store.friendRequests receiver).get? title)
        ((store.friendRequests receiver).get? title) = false ∧
      s.change receiver title store = { s with store := store }.fire s.listeners receiver := by
  cases hc : unchanged ((s.store.friendRequests receiver).get? title)
      ((store.friendRequests receiver).get? title) with
  | true => exact Or.inl ⟨rfl, if_pos hc⟩
  | false => exact Or.inr ⟨rfl, if_neg (by rw [hc]; exact Bool.false_ne_true)⟩

/-- A write leaves the objects alone. -/
structure Writes (s s' : State) : Prop where
  objects : s'.objects = s.objects
  currentUser : s'.currentUser = s.currentUser
  listeners : s'.listeners = s.listeners

theorem writes_change (receiver title : String) (store : Store) :
    Writes s (s.change receiver title store) := by
  obtain ⟨-, h⟩ | ⟨-, h⟩ := change_cases s receiver title store <;>
    · rw [h]
      exact ⟨rfl, rfl, rfl⟩

theorem writes_write (w : Write) : Writes s (s.write w) := by
  cases w with
  | setUser uuid dict => exact ⟨rfl, rfl, rfl⟩
  | setRequest receiver title dict => exact writes_change s receiver title _
  | deleteRequest receiver title => exact writes_change s receiver title _

theorem writes_writeAll (ws : List Write) : Writes s (s.writeAll ws) := by
  induction ws generalizing s with
  | nil => exact ⟨rfl, rfl, rfl⟩
  | cons w ws ih =>
    obtain ⟨ho, hc, hl⟩ := writes_write s w
    obtain ⟨ho', hc', hl'⟩ := ih (s.write w)
    exact ⟨ho'.trans ho, hc'.trans hc, hl'.trans hl⟩

theorem writeAll_append (ws ws' : List Write) :
    s.writeAll (ws ++ ws') = (s.writeAll ws).writeAll ws' :=
  List.foldl_append

theorem change_setObject (o : ℕ) (u : User) (receiver title : String) (store : Store) :
    (s.setObject o u).change receiver title store =
      (s.change receiver title store).setObject o u := by
  obtain ⟨hc, h⟩ | ⟨hc, h⟩ := change_cases s receiver title store
  · rw [h]
    exact if_pos hc
  · rw [h]
    exact if_neg (by rw [State.setObject, hc]; exact Bool.false_ne_true)

theorem writeAll_setObject (o : ℕ) (u : User) (ws : List Write) :
    (s.setObject o u).writeAll ws = (s.writeAll ws).setObject o u := by
  have hwrite : ∀ (s : State) (w : Write),
      (s.setObject o u).write w = (s.write w).setObject o u := by
    intro s w
    cases w with
    | setUser uuid dict => rfl
    | setRequest receiver title dict => exact change_setObject s o u receiver title _
    | deleteRequest receiver title => exact change_setObject s o u receiver title _
  induction ws generalizing s with
  | nil => rfl
  | cons w ws ih =>
    rw [State.writeAll, List.foldl_cons, hwrite]
    exact ih (s.write w)

end Writes

/-! ### The completion of an accept -/

section Completion

variable {s : State} {o : ℕ} {origin : User}

theorem acceptDeleted_of_friend (hfriend : origin.username ∈ (s.objects o).friends) (err : Bool) :
    acceptDeleted s o origin err = s := by
  cases err <;> simp [acceptDeleted, hfriend]

theorem acceptDeleted_of_missing (hfriend : origin.username ∉ (s.objects o).friends)
    (hr : ⟨origin.uuid, (s.objects o).uuid⟩ ∉ (s.objects o).friendRequests) :
    acceptDeleted s o origin false =
      (s.setObject o ((s.objects o).addFriend origin.username)).writeAll
        (saveUser (origin.addFriend (s.objects o).username)) := by
  simp only [acceptDeleted, if_neg hfriend, if_neg hr, Bool.false_eq_true, if_false]

/-- The other user is saved before the request is removed, which the save does not see. -/
theorem acceptDeleted_of_pending (hfriend : origin.username ∉ (s.objects o).friends)
    (hr : ⟨origin.uuid, (s.objects o).uuid⟩ ∈ (s.objects o).friendRequests) :
    acceptDeleted s o origin false =
      saveCurrent ((s.setObject o (((s.objects o).addFriend origin.username).removeRequest
        ⟨origin.uuid, (s.objects o).uuid⟩)).writeAll
          (saveUser (origin.addFriend (s.objects o).username))) := by
  simp only [acceptDeleted, if_neg hfriend, if_pos hr, Bool.false_eq_true, if_false]
  rw [← writeAll_setObject, State.setObject_setObject]

/-- When the object is current, the completion is that of the friend operations. -/
theorem acceptDeleted_current (ho : s.currentUser = some o) (err : Bool) :
    acceptDeleted s o origin err =
      (s.setObject o (UserController.acceptDeleted origin (s.objects o) err).currentUser).writeAll
        (UserController.acceptDeleted origin (s.objects o) err).writes := by
  have hself := s.setObject_self o
  cases err with
  | true =>
    rw [acceptDeleted_err]
    exact hself.symm
  | false =>
    by_cases hfriend : origin.username ∈ (s.objects o).friends
    · rw [acceptDeleted_friend hfriend, acceptDeleted_of_friend hfriend]
      exact hself.symm
    · by_cases hr : ⟨origin.uuid, (s.objects o).uuid⟩ ∈ (s.objects o).friendRequests
      · rw [acceptDeleted_pending hfriend hr, acceptDeleted_of_pending hfriend hr]
        generalize ((s.objects o).addFriend origin.username).removeRequest _ = u
        rw [writeAll_append]
        have hwrites := writes_writeAll (s.setObject o u)
          (saveUser (origin.addFriend (s.objects o).username))
        have hobj : ((s.setObject o u).writeAll
            (saveUser (origin.addFriend (s.objects o).username))).objects o = u := by
          rw [hwrites.objects, State.setObject_objects]
        simp only [saveCurrent, hwrites.currentUser.trans ho, hobj]
      · rw [acceptDeleted_missing hfriend hr, acceptDeleted_of_missing hfriend hr]

end Completion

end JamSession.Listener
