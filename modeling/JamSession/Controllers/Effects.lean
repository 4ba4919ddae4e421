import JamSession.Controllers.UserController

/-! What the writes of the friend operations do to the store. All of them reach the `Users`
collection through `saveUser` and `saveData`, so their effect on a user's stored fields is
read off the user object that was saved. `Coherent name` says that every user document is an
encoded user, stored under its own uuid and under the username that the directory `name`
records for that uuid; a write of an object with its recorded username keeps it. -/

namespace JamSession

variable [UIKit]

open UserController

/-! ### Saved objects -/

theorem users_applyAll_saveRequests (s : Store) (u : User) :
    (s.applyAll (saveRequests u)).users = s.users := by
  unfold saveRequests
  generalize u.friendRequests = rs
  induction rs generalizing s with
  | nil => rfl
  | cons r rs ih => exact ih _

theorem users_applyAll_sendFriendRequest (s : Store) (m o : User) :
    (s.applyAll (sendFriendRequest m o)).users = s.users := by
  unfold sendFriendRequest
  split_ifs <;> rfl

theorem users_applyAll_saveUser (s : Store) (u : User) :
    (s.applyAll (saveUser u)).users = s.users.set u.uuid u.toFireObj :=
  users_applyAll_saveRequests _ u

/-- The `Users` collection after some writes depends on the `Users` collection before them. -/
theorem users_applyAll_congr {s s' : Store} (h : s'.users = s.users) (ws : List Write) :
    (s'.applyAll ws).users = (s.applyAll ws).users := by
  induction ws generalizing s s' with
  | nil => exact h
  | cons w ws ih =>
    apply ih
    cases w with
    | setUser uuid dict => simp only [Store.apply, h]
    | setRequest receiver title dict => exact h
    | deleteRequest receiver title => exact h

theorem saveData_eq_saveUser (u : User) : saveData u = saveUser u := rfl

@[simp] theorem friends_applyAll_saveUser (s : Store) (u : User) (k : String) :
    (s.applyAll (saveUser u)).friends k = if k = u.uuid then u.friends else s.friends k := by
  rw [← s.apply_setUser_friends u.uuid u k]
  unfold Store.friends
  rw [users_applyAll_saveUser, Store.apply]

@[simp] theorem blocked_applyAll_saveUser (s : Store) (u : User) (k : String) :
    (s.applyAll (saveUser u)).blocked k = if k = u.uuid then u.blocked else s.blocked k := by
  rw [← s.apply_setUser_blocked u.uuid u k]
  unfold Store.blocked
  rw [users_applyAll_saveUser, Store.apply]

@[simp] theorem username_applyAll_saveUser (s : Store) (u : User) (k : String) :
    (s.applyAll (saveUser u)).username k =
      if k = u.uuid then some u.username else s.username k := by
  rw [← s.apply_setUser_username u.uuid u k]
  unfold Store.username
  rw [users_applyAll_saveUser, Store.apply]

/-! ### The directory of usernames -/

/-- `u` goes by the username that the directory records for its uuid. -/
def User.Known (name : String → Option String) (u : User) : Prop :=
  name u.uuid = some u.username

theorem User.Known.username_eq {name : String → Option String} {u v : User} (hu : u.Known name)
    (hv : v.Known name) (h : u.uuid = v.uuid) : u.username = v.username := by
  rw [User.Known, h, hv] at hu
  exact (Option.some.inj hu).symm

/-- The write stores an encoded user under its own uuid and its recorded username. -/
def Write.Names (name : String → Option String) : Write → Prop
  | .setUser uuid dict => ∃ u : User, dict = u.toFireObj ∧ u.uuid = uuid ∧ u.Known name
  | .setRequest _ _ _ => True
  | .deleteRequest _ _ => True

def Store.Coherent (s : Store) (name : String → Option String) : Prop :=
  ∀ k d, s.users.get? k = some d → ∃ u : User, d = u.toFireObj ∧ u.uuid = k ∧ u.Known name

namespace Store

variable {s : Store} {name : String → Option String}

theorem Coherent.username {k n : String} (h : s.Coherent name) (hk : s.username k = some n) :
    name k = some n := by
  obtain ⟨d, hd, hn⟩ := Option.bind_eq_some_iff.mp hk
  obtain ⟨u, rfl, rfl, hu⟩ := h k d hd
  rw [User.toFireObj_username] at hn
  rw [hu, hn]

theorem Coherent.apply {w : Write} (h : s.Coherent name) (hw : w.Names name) :
    (s.apply w).Coherent name := by
  cases w with
  | setUser uuid dict =>
    intro k d hd
    rw [apply_setUser_get?] at hd
    split_ifs at hd with hk
    · obtain ⟨u, rfl, hu, hn⟩ := hw
      exact ⟨u, (Option.some.inj hd).symm, hu.trans hk.symm, hn⟩
    · exact h k d hd
  | setRequest receiver title dict => exact h
  | deleteRequest receiver title => exact h

theorem Coherent.applyAll {ws : List Write} (h : s.Coherent name)
    (hws : ∀ w ∈ ws, w.Names name) : (s.applyAll ws).Coherent name := by
  induction ws generalizing s with
  | nil => exact h
  | cons w ws ih =>
    exact ih (h.apply (hws w (by simp))) (fun w' hw' => hws w' (by simp [hw']))

/-- Writes under the recorded usernames leave the usernames of the documents alone. -/
theorem username_apply {w : Write} (hw : w.Names s.username) :
    (s.apply w).username = s.username := by
  cases w with
  | setUser uuid dict =>
    obtain ⟨u, rfl, rfl, hu⟩ := hw
    funext k
    rw [apply_setUser_username]
    split_ifs with he
    · rw [he, hu]
    · rfl
  | setRequest receiver title dict => rfl
  | deleteRequest receiver title => rfl

theorem username_applyAll {ws : List Write} (hws : ∀ w ∈ ws, w.Names s.username) :
    (s.applyAll ws).username = s.username := by
  induction ws generalizing s with
  | nil => rfl
  | cons w ws ih =>
    have hw := username_apply (hws w (by simp))
    rw [applyAll_cons, ih (fun w' hw' => hw ▸ hws w' (by simp [hw'])), hw]

end Store

/-- A fetched user is a copy of the object stored under its uuid. -/
theorem Store.Coherent.grabUser {s : Store} {name : String → Option String}
    (h : s.Coherent name) {field value : String} {o : User}
    (ho : UserController.grabUser (some (usersWhere s.users field value)) = .ok o) :
    ∃ u : User, s.users.get? o.uuid = some u.toFireObj ∧ o.CopyOf u ∧ o.Known name ∧
      u.toFireObj.string field = some value := by
  obtain ⟨k, d, hk, hf, hd⟩ := grabUser_usersWhere ho
  obtain ⟨u, rfl, rfl, hu⟩ := h k d hk
  have hcopy := User.fromStringAny_toFireObj hd
  refine ⟨u, hcopy.uuid ▸ hk, hcopy, ?_, hf⟩
  rw [User.Known, hcopy.uuid, hcopy.username, hu]

/-- A lookup by uuid finds the user of that uuid. -/
theorem Store.Coherent.answer_uuid {s : Store} {name : String → Option String}
    (h : s.Coherent name) {a : String} {o : User} (ho : (Query.byUuid a).answer s.users = .ok o) :
    o.uuid = a := by
  obtain ⟨u, -, hcopy, -, hfield⟩ := h.grabUser ho
  rw [User.toFireObj_uuid, Option.some.injEq] at hfield
  rw [hcopy.uuid, hfield]

/-- A query by uuid answers with the document stored under that uuid, if there is one. -/
theorem Store.Coherent.usersWhere_uuid {s : Store} {name : String → Option String}
    (h : s.Coherent name) (k : String) :
    usersWhere s.users "uuid" k = (s.users.get? k).toList := by
  refine s.users.select_of_key fun j d hd => ?_
  obtain ⟨u, rfl, rfl, -⟩ := h j d hd
  simp

/-- What the caller of a lookup gets: a known user with the stored lists and no requests. -/
structure Store.Fetched (s : Store) (name : String → Option String) (o : User) : Prop where
  known : o.Known name
  username : s.username o.uuid = some o.username
  friends : o.friends = s.friends o.uuid
  blocked : o.blocked = s.blocked o.uuid
  friendRequests : o.friendRequests = []

theorem Store.Coherent.fetched {s : Store} {name : String → Option String}
    (h : s.Coherent name) {q : Query} {o : User} (ho : q.answer s.users = .ok o) :
    s.Fetched name o := by
  have key : ∀ field value, UserController.grabUser (some (usersWhere s.users field value)) =
      .ok o → s.Fetched name o := by
    intro field value hg
    obtain ⟨u, hu, hcopy, hknown, -⟩ := h.grabUser hg
    exact ⟨hknown, by rw [username_of_get? hu, hcopy.username],
      by rw [friends_of_get? hu, hcopy.friends], by rw [blocked_of_get? hu, hcopy.blocked],
      hcopy.friendRequests⟩
  cases q with
  | byUsername username => exact key _ _ ho
  | byUuid uuid => exact key _ _ ho

/-! ### What every operation keeps -/

/-- The write stores an encoded user that satisfies `P`, under its own uuid. -/
def Write.Stores (P : User → Prop) : Write → Prop
  | .setUser uuid dict => ∃ u : User, dict = u.toFireObj ∧ u.uuid = uuid ∧ P u
  | .setRequest _ _ _ => True
  | .deleteRequest _ _ => True

theorem Write.names_iff {name : String → Option String} {w : Write} :
    w.Names name ↔ w.Stores (User.Known name) := by
  cases w <;> exact Iff.rfl

/-- `P` is not about the three lists that the operations edit. -/
def Stable (P : User → Prop) : Prop :=
  ∀ (u : User) blocked friends requests, P u →
    P { u with blocked := blocked, friends := friends, friendRequests := requests }

theorem stable_known (name : String → Option String) : Stable (User.Known name) :=
  fun _ _ _ _ h => h

structure Outcome.Keeps (P : User → Prop) (out : Outcome) : Prop where
  currentUser : P out.currentUser
  writes : ∀ w ∈ out.writes, w.Stores P

theorem Outcome.Keeps.names {name : String → Option String} {out : Outcome}
    (h : out.Keeps (User.Known name)) :
    out.currentUser.Known name ∧ ∀ w ∈ out.writes, w.Names name :=
  ⟨h.currentUser, fun w hw => Write.names_iff.mpr (h.writes w hw)⟩

section Keeps

variable {P : User → Prop} {m o : User}

theorem Stable.addFriend (hP : Stable P) (h : P m) (n : String) : P (m.addFriend n) :=
  hP m _ _ _ h

theorem Stable.removeFriend (hP : Stable P) (h : P m) (n : String) : P (m.removeFriend n) :=
  hP m _ _ _ h

theorem Stable.addBlocked (hP : Stable P) (h : P m) (n : String) : P (m.addBlocked n) :=
  hP m _ _ _ h

theorem Stable.addRequests (hP : Stable P) (h : P m) (rs : List FriendRequest) :
    P (m.addRequests rs) :=
  hP m _ _ _ h

theorem Stable.removeRequest (hP : Stable P) (h : P m) (r : FriendRequest) :
    P (m.removeRequest r) :=
  hP m _ _ _ h

theorem saveUser_stores (h : P m) : ∀ w ∈ saveUser m, w.Stores P := by
  intro w hw
  rcases List.mem_cons.mp hw with rfl | hw
  · exact ⟨m, rfl, rfl, h⟩
  · obtain ⟨r, -, rfl⟩ := List.mem_map.mp hw
    trivial

theorem Outcome.keeps_nil (h : P m) : (⟨m, []⟩ : Outcome).Keeps P :=
  ⟨h, fun _ hw => by cases hw⟩

theorem sendFriendRequest_stores (m o : User) : ∀ w ∈ sendFriendRequest m o, w.Stores P := by
  intro w hw
  obtain ⟨-, rfl⟩ := mem_sendFriendRequest.mp hw
  trivial

theorem ignoreFriendRequest_keeps (hP : Stable P) (h : P m) : (ignoreFriendRequest o m).Keeps P := by
  by_cases hr : ⟨o.uuid, m.uuid⟩ ∈ m.friendRequests
  · rw [ignoreFriendRequest_pending hr]
    refine ⟨hP.removeRequest h _, fun w hw => ?_⟩
    rcases List.mem_cons.mp hw with rfl | hw
    · trivial
    · exact saveUser_stores (hP.removeRequest h _) w hw
  · rw [ignoreFriendRequest_missing hr]
    exact Outcome.keeps_nil h

theorem unfriendUser_keeps (hP : Stable P) (hm : P m) (ho : P o) : (unfriendUser m o).Keeps P := by
  have hm' := hP.removeFriend hm o.username
  unfold unfriendUser
  split_ifs
  · refine ⟨hm', fun w hw => ?_⟩
    rcases List.mem_append.mp hw with hw | hw
    · exact saveUser_stores (hP.removeFriend ho _) w hw
    · exact saveUser_stores hm' w hw
  · exact Outcome.keeps_nil hm'
  · exact Outcome.keeps_nil hm

theorem blockUser_keeps (hP : Stable P) (hm : P m) (ho : P o) : (blockUser m o).Keeps P := by
  have hu := unfriendUser_keeps hP hm ho
  rw [blockUser_eq]
  refine ⟨hP.addBlocked hu.currentUser _, fun w hw => ?_⟩
  rcases List.mem_append.mp hw with hw | hw
  · exact hu.writes w hw
  · exact saveUser_stores (hP.addBlocked hu.currentUser _) w hw

theorem acceptDeleted_keeps (hP : Stable P) (hm : P m) (ho : P o) (err : Bool) :
    (acceptDeleted o m err).Keeps P := by
  have hm' := hP.addFriend hm o.username
  have ho' : ∀ w ∈ saveUser (o.addFriend m.username), w.Stores P :=
    saveUser_stores (hP.addFriend ho _)
  by_cases hf : err = true ∨ o.username ∈ m.friends
  · have hidle : acceptDeleted o m err = ⟨m, []⟩ := by
      rcases hf with rfl | hf
      · exact acceptDeleted_err
      · exact acceptDeleted_friend hf err
    rw [hidle]
    exact Outcome.keeps_nil hm
  · rw [not_or, Bool.not_eq_true] at hf
    obtain ⟨rfl, hf⟩ := hf
    by_cases hr : ⟨o.uuid, m.uuid⟩ ∈ m.friendRequests
    · rw [acceptDeleted_pending hf hr]
      refine ⟨hP.removeRequest hm' _, fun w hw => ?_⟩
      rcases List.mem_append.mp hw with hw | hw
      · exact ho' w hw
      · exact saveUser_stores (hP.removeRequest hm' _) w hw
    · rw [acceptDeleted_missing hf hr]
      exact ⟨hm', ho'⟩

theorem saveUser_names {name : String → Option String} (h : m.Known name) :
    ∀ w ∈ saveUser m, w.Names name :=
  fun w hw => Write.names_iff.mpr (saveUser_stores h w hw)

theorem unfriendUser_names {name : String → Option String} (hm : m.Known name)
    (ho : o.Known name) : (unfriendUser m o).currentUser.Known name ∧
      ∀ w ∈ (unfriendUser m o).writes, w.Names name :=
  (unfriendUser_keeps (stable_known name) hm ho).names

end Keeps

end JamSession
