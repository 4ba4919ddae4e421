import JamSession.Firestore.Store

/-! The user lookups of `UserController`, and the sign-in that gives the uuid of one of them. A
lookup is a query on one field of the `Users` collection; its completion sees the documents of
the answer, or none at all when the query failed. -/

namespace JamSession

inductive ManErr
  | cannotlogin
  | noSuchUser
  | firebaseError
  | tooManySameUsername
  deriving DecidableEq, Repr

variable [UIKit]

namespace UserController

/-- `db.collection("Users").whereField(field, isEqualTo: value)` -/
def usersWhere (users : OrderedMap String Dict) (field value : String) : List Dict :=
  (users.select fun _ d => d.string field = some value).map Prod.snd

/-- The completion that the two lookups share; `none` is an answer with an error. -/
def grabUser : Option (List Dict) → Except ManErr User
  | none => .error .firebaseError
  | some documents =>
    if documents.length > 1 then .error .tooManySameUsername
    else match documents with
      | [] => .error .noSuchUser
      | stringAny :: _ => match User.fromStringAny stringAny with
        | none => .error .noSuchUser
        | some user => .ok user

/-- A lookup by one of the two fields. -/
inductive Query
  | byUsername (username : String)
  | byUuid (uuid : String)

/-- The documents that `grabUserFromUsername` and `grabUserFromUuid` query for. -/
def Query.documents (users : OrderedMap String Dict) : Query → List Dict
  | .byUsername username => usersWhere users "username" username
  | .byUuid uuid => usersWhere users "uuid" uuid

/-- `grabUserFromUsername` and `grabUserFromUuid`, when the query does not fail. -/
def Query.answer (users : OrderedMap String Dict) (q : Query) : Except ManErr User :=
  grabUser (some (q.documents users))

/-- `grabUserFromUuid`, whose query fails if `err`. -/
def grabUserFromUuid (users : OrderedMap String Dict) (err : Bool) (uuid : String) :
    Except ManErr User :=
  grabUser (if err then none else some (usersWhere users "uuid" uuid))

/-- `grabUserFromUsername`, whose query fails if `err`. -/
def grabUserFromUsername (users : OrderedMap String Dict) (err : Bool) (username : String) :
    Except ManErr User :=
  grabUser (if err then none else some (usersWhere users "username" username))

/-- The completion of `dbContainsUsername`. -/
def dbContainsUsername : Except ManErr User → Bool
  | .ok _ => true
  | .error _ => false

end UserController

namespace LoginController

/-- The completion of `signIn`, which has an error or a result with the uid of its user. -/
def loginUser : Except Unit (Option String) → Except ManErr String
  | .error _ => .error .firebaseError
  | .ok none => .error .noSuchUser
  | .ok (some uid) => .ok uid

/-- What Auth answers to the email and the password of the account `uid`. -/
def signIn (accounts : String → Option String) (uid : String) : Except Unit (Option String) :=
  if (accounts uid).isSome then .ok (some uid) else .error ()

end LoginController

namespace UserController

/-! ### What a lookup finds -/

theorem mem_usersWhere {users : OrderedMap String Dict} {field value : String} {d : Dict} :
    d ∈ usersWhere users field value ↔
      ∃ k, users.get? k = some d ∧ d.string field = some value := by
  simp only [usersWhere, List.mem_map, Prod.exists, OrderedMap.mem_select, decide_eq_true_eq]
  constructor
  · rintro ⟨k, d', ⟨hk, hd⟩, rfl⟩
    exact ⟨k, hk, hd⟩
  · rintro ⟨k, hk, hd⟩
    exact ⟨k, d, ⟨hk, hd⟩, rfl⟩

/-- A found user is decoded from the only document of the answer. -/
theorem grabUser_ok {answer : Option (List Dict)} {u : User} (h : grabUser answer = .ok u) :
    ∃ d, answer = some [d] ∧ User.fromStringAny d = some u := by
  match answer with
  | none => simp [grabUser] at h
  | some documents =>
    simp only [grabUser] at h
    split_ifs at h with hl
    match documents with
    | [] => simp at h
    | [d] =>
      refine ⟨d, rfl, ?_⟩
      simp only at h
      split at h
      · simp at h
      · rename_i w hw
        rw [hw, Except.ok.inj h]
    | _ :: _ :: _ => simp at hl

/-- A lookup makes a copy without requests. -/
theorem Query.answer_bare {users : OrderedMap String Dict} {q : Query} {u : User}
    (h : q.answer users = .ok u) : u.friendRequests = [] := by
  obtain ⟨d, -, hd⟩ := grabUser_ok h
  exact User.friendRequests_of_fromStringAny hd

/-- A user found by a field was stored, in a document with that field. -/
theorem grabUser_usersWhere {users : OrderedMap String Dict} {field value : String} {u : User}
    (h : grabUser (some (usersWhere users field value)) = .ok u) :
    ∃ k d, users.get? k = some d ∧ d.string field = some value ∧
      User.fromStringAny d = some u := by
  obtain ⟨d, hd, hu⟩ := grabUser_ok h
  have hmem : d ∈ usersWhere users field value := by
    rw [Option.some.inj hd]
    exact List.mem_singleton_self d
  obtain ⟨k, hk, hf⟩ := mem_usersWhere.mp hmem
  exact ⟨k, d, hk, hf, hu⟩

theorem grabUserFromUuid_uuid {users : OrderedMap String Dict} {err : Bool} {uuid : String}
    {u : User} (h : grabUserFromUuid users err uuid = .ok u) : u.uuid = uuid := by
  cases err with
  | true => cases h
  | false =>
    have hgrab : grabUser (some (usersWhere users "uuid" uuid)) = .ok u := h
    obtain ⟨k, d, -, hf, hd⟩ := grabUser_usersWhere hgrab
    rw [User.uuid_of_fromStringAny hd] at hf
    exact Option.some.inj hf

theorem grabUserFromUsername_username {users : OrderedMap String Dict} {err : Bool}
    {username : String} {u : User} (h : grabUserFromUsername users err username = .ok u) :
    u.username = username := by
  cases err with
  | true => cases h
  | false =>
    have hgrab : grabUser (some (usersWhere users "username" username)) = .ok u := h
    obtain ⟨k, d, -, hf, hd⟩ := grabUser_usersWhere hgrab
    rw [User.username_of_fromStringAny hd] at hf
    exact Option.some.inj hf

end UserController

end JamSession
