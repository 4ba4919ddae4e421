import JamSession.Sequential.System
import JamSession.Firestore.PlainKit

/-! An unfriend right after an accept. The accept appends a name to each of the two lists, in
memory and in the fetched copy of the other user; the unfriend looks the user up again, so it
works on a copy of what the accept stored, and removes the first occurrence of each name. Where
neither list had the name before, that occurrence is the appended one, and both documents are
stored as they were but for the pictures, which have been decoded and encoded again. -/

namespace JamSession.Sequential

open UserController

section

variable [UIKit]

/-- The two documents have the same fields, the picture apart. -/
def SameButPicture (d d' : Dict) : Prop := ∀ field, field ≠ "profilePic" → d' field = d field

/-- From `s` to `s'` the friends of `m` in memory and in the store, the stored friends of `a` and
the other fields of both documents are the same. -/
structure Restored (s s' : State) (c : ℕ) (m : User) (a : String) : Prop where
  memory : ∃ m', s'.session c = some m' ∧ m'.friends = m.friends
  friends : ∀ k ∈ [m.uuid, a], s'.store.friends k = s.store.friends k
  documents : ∀ k ∈ [m.uuid, a], ∃ d d', s.store.users.get? k = some d ∧
    s'.store.users.get? k = some d' ∧ SameButPicture d d'

/-! ### Documents of copies -/

theorem SameButPicture.trans {d d' d'' : Dict} (h : SameButPicture d d')
    (h' : SameButPicture d' d'') : SameButPicture d d'' :=
  fun field hf => (h' field hf).trans (h field hf)

/-- The document of a user who differs from `u` in the picture and the requests alone. -/
theorem sameButPicture_of_copyOf {u w : User} (h : w.CopyOf u) :
    SameButPicture u.toFireObj w.toFireObj := by
  intro field hf
  unfold User.toFireObj
  split <;> simp_all [h.username, h.uuid, h.friends, h.blocked, h.location, h.bio, h.instrument,
    h.experienceLevel]

theorem toFireObj_friends_requests (u : User) (rs : List FriendRequest) {friends : List String}
    (h : friends = u.friends) :
    ({ u with friends := friends, friendRequests := rs } : User).toFireObj = u.toFireObj := by
  subst h
  rfl

/-! ### The two operations on the Users collection -/

section Operations

variable {s : Store} {m o : User}

/-- Two users are saved. -/
theorem users_saveBoth (s : Store) (u v : User) : (s.applyAll (saveUser u ++ saveData v)).users =
    (s.users.set u.uuid u.toFireObj).set v.uuid v.toFireObj := by
  rw [Store.applyAll_append, saveData_eq_saveUser, users_applyAll_saveUser, users_applyAll_saveUser]

/-- The current user after the accept. -/
def accepted (m o : User) : User := (m.addFriend o.username).removeRequest ⟨o.uuid, m.uuid⟩

theorem perform_accept (hmo : o.username ∉ m.friends) (hr : ⟨o.uuid, m.uuid⟩ ∈ m.friendRequests) :
    (perform m o .accept).currentUser = accepted m o ∧
    (s.applyAll (perform m o .accept).writes).users =
      (s.users.set o.uuid (o.addFriend m.username).toFireObj).set m.uuid
        (accepted m o).toFireObj := by
  simp only [perform, acceptDeleted_pending hmo hr]
  exact ⟨rfl, (users_saveBoth _ (o.addFriend m.username) (accepted m o)).trans rfl⟩

theorem perform_unfriend (hmo : o.username ∈ m.friends) (hom : m.username ∈ o.friends) :
    (perform m o .unfriend).currentUser = m.removeFriend o.username ∧
    (s.applyAll (perform m o .unfriend).writes).users =
      (s.users.set o.uuid (o.removeFriend m.username).toFireObj).set m.uuid
        (m.removeFriend o.username).toFireObj := by
  simp only [perform, unfriendUser_mutual hmo hom]
  exact ⟨trivial, users_saveBoth s _ _⟩

/-- The first occurrence of the name is the one that was appended. -/
theorem addFriend_removeFriend {u : User} {n : String} (h : n ∉ u.friends) :
    ((u.addFriend n).removeFriend n).friends = u.friends := by
  show (u.friends ++ [n]).erase n = u.friends
  rw [List.erase_append_right _ h, List.erase_cons_head, List.append_nil]

end Operations

/-! ### One after the other -/

theorem step_call {s : State} {c : ℕ} {op : Operation} {q : Query} {m o : User}
    (hm : s.session c = some m) (ho : q.answer s.store.users = .ok o) :
    step s (.call c op q) = ⟨s.store.applyAll (perform m o op).writes,
      Function.update s.session c (some (perform m o op).currentUser)⟩ := by
  simp only [step, hm, ho]

/-- A user who is looked up was decoded from the document under its uuid. -/
theorem decoded_of_answer {s : Store} {name : String → Option String} (hc : s.Coherent name)
    {q : Query} {o : User} (ho : q.answer s.users = .ok o) :
    ∃ d, s.users.get? o.uuid = some d ∧ User.fromStringAny d = some o := by
  have key : ∀ field value, grabUser (some (usersWhere s.users field value)) = .ok o →
      ∃ d, s.users.get? o.uuid = some d ∧ User.fromStringAny d = some o := by
    intro field value hg
    obtain ⟨k, d, hk, -, hd⟩ := grabUser_usersWhere hg
    obtain ⟨u, rfl, rfl, -⟩ := hc k d hk
    exact ⟨_, (User.fromStringAny_toFireObj hd).uuid ▸ hk, hd⟩
  cases q with
  | byUsername username => exact key _ _ ho
  | byUuid uuid => exact key _ _ ho

/-- The copy that is looked up after the accept is one of what the accept saved. -/
theorem fetched_after_accept {s : Store} {m o o' : User} (hc : s.Coherent s.username)
    (hm : m.Known s.username) (ho : o.Known s.username) (hne : o.uuid ≠ m.uuid)
    (hmo : o.username ∉ m.friends) (hr : ⟨o.uuid, m.uuid⟩ ∈ m.friendRequests) {q : Query}
    (ho' : q.answer (s.applyAll (perform m o .accept).writes).users = .ok o')
    (huuid : o'.uuid = o.uuid) : o'.CopyOf (o.addFriend m.username) := by
  have hnames := (perform_keeps (stable_known s.username) hm ho .accept).names.2
  obtain ⟨d, hd, hdec⟩ := decoded_of_answer (hc.applyAll hnames) ho'
  rw [(perform_accept hmo hr).2, huuid, OrderedMap.get?_set_of_ne _ _ hne,
    OrderedMap.get?_set_self] at hd
  rw [← Option.some.inj hd] at hdec
  exact User.fromStringAny_toFireObj hdec

/-- The documents of the two after accept and unfriend, given the copy that was looked up in
between. -/
theorem users_accept_unfriend {s : Store} {m o o' : User} (hmo : o.username ∉ m.friends)
    (hr : ⟨o.uuid, m.uuid⟩ ∈ m.friendRequests)
    (hcopy : o'.CopyOf (o.addFriend m.username)) :
    (perform (accepted m o) o' .unfriend).currentUser = (accepted m o).removeFriend o.username ∧
    ((s.applyAll (perform m o .accept).writes).applyAll
        (perform (accepted m o) o' .unfriend).writes).users =
      ((((s.users.set o.uuid (o.addFriend m.username).toFireObj).set m.uuid
        (accepted m o).toFireObj).set o.uuid (o'.removeFriend m.username).toFireObj).set m.uuid
          ((accepted m o).removeFriend o.username).toFireObj) := by
  have hname : o'.username = o.username := hcopy.username
  have huuid : o'.uuid = o.uuid := hcopy.uuid
  have hlisted : o'.username ∈ (accepted m o).friends := by
    rw [hname]
    exact List.mem_append_right _ (List.mem_singleton_self _)
  have hlisted' : (accepted m o).username ∈ o'.friends := by
    rw [hcopy.friends]
    exact List.mem_append_right _ (List.mem_singleton_self _)
  obtain ⟨hcurrent, husers⟩ := perform_unfriend
    (s := s.applyAll (perform m o .accept).writes) hlisted hlisted'
  rw [hname] at hcurrent husers
  rw [huuid, (perform_accept hmo hr).2] at husers
  exact ⟨hcurrent, husers⟩

/-- A stored document that agrees with memory has its username and friends. -/
theorem agrees_known {s : Store} {m : User} {d : Dict} (hd : s.users.get? m.uuid = some d)
    (hagree : SameButPicture d m.toFireObj) :
    m.Known s.username ∧ s.friends m.uuid = m.friends := by
  constructor
  · rw [User.Known, Store.username, hd, Option.bind_some, Dict.string,
      ← hagree "username" (by decide)]
    rfl
  · rw [Store.friends, hd, Option.bind_some, Dict.strings, ← hagree "friends" (by decide)]
    exact congrArg (Option.getD · []) m.toFireObj_friends

/-- An unfriend on a fresh lookup undoes an accept. -/
theorem unfriend_undoes_accept {s : State} {c : ℕ} {q q' : Query} {m o o' : User} {d : Dict}
    (hc : s.store.Coherent s.store.username) (hm : s.session c = some m)
    (hd : s.store.users.get? m.uuid = some d) (hagree : SameButPicture d m.toFireObj)
    (ho : q.answer s.store.users = .ok o) (hne : o.uuid ≠ m.uuid) (hmo : o.username ∉ m.friends)
    (hom : m.username ∉ o.friends) (hr : ⟨o.uuid, m.uuid⟩ ∈ m.friendRequests)
    (ho' : q'.answer (step s (.call c .accept q)).store.users = .ok o') (huuid : o'.uuid = o.uuid) :
    Restored s (step (step s (.call c .accept q)) (.call c .unfriend q')) c m o.uuid := by
  obtain ⟨hknown, hfriends⟩ := agrees_known hd hagree
  have hfetched := hc.fetched ho
  obtain ⟨dₒ, hdₒ, hdec⟩ := decoded_of_answer hc ho
  obtain ⟨u, rfl, -, -⟩ := hc o.uuid dₒ hdₒ
  have hstep : step s (.call c .accept q) = _ := step_call hm ho
  rw [(perform_accept (s := s.store) hmo hr).1] at hstep
  rw [hstep] at ho' ⊢
  have hcopy := fetched_after_accept hc hknown hfetched.known hne hmo hr ho' huuid
  have hsession : (Function.update s.session c (some (accepted m o))) c = some (accepted m o) :=
    Function.update_self ..
  obtain ⟨hcurrent, husers⟩ := users_accept_unfriend (s := s.store) hmo hr hcopy
  have hstep' : step _ (.call c .unfriend q') = _ := step_call hsession ho'
  rw [hstep', hcurrent]
  -- the two documents in the end
  have hm' : ((accepted m o).removeFriend o.username).friends = m.friends :=
    addFriend_removeFriend hmo
  have hdoc : ((accepted m o).removeFriend o.username).toFireObj = m.toFireObj :=
    toFireObj_friends_requests m _ hm'
  have ho'' : (o'.removeFriend m.username).CopyOf o := by
    refine ⟨hcopy.username, hcopy.uuid, ?_, hcopy.blocked, hcopy.location, hcopy.bio,
      hcopy.instrument, hcopy.experienceLevel, hcopy.friendRequests⟩
    show o'.friends.erase m.username = o.friends
    rw [hcopy.friends]
    exact addFriend_removeFriend hom
  have hget : ((s.store.applyAll (perform m o .accept).writes).applyAll
      (perform (accepted m o) o' .unfriend).writes).users.get? m.uuid = some m.toFireObj := by
    rw [husers, hdoc, OrderedMap.get?_set_self]
  have hget' : ((s.store.applyAll (perform m o .accept).writes).applyAll
      (perform (accepted m o) o' .unfriend).writes).users.get? o.uuid =
        some (o'.removeFriend m.username).toFireObj := by
    rw [husers, OrderedMap.get?_set_of_ne _ _ hne, OrderedMap.get?_set_self]
  refine ⟨⟨_, Function.update_self .., hm'⟩, ?_, ?_⟩
  · simp only [List.forall_mem_cons, List.not_mem_nil, false_imp_iff, implies_true, and_true]
    rw [Store.friends_of_get? hget, Store.friends_of_get? hget', hfriends, ← hfetched.friends]
    exact ⟨rfl, ho''.friends⟩
  · simp only [List.forall_mem_cons, List.not_mem_nil, false_imp_iff, implies_true, and_true]
    refine ⟨⟨d, _, hd, hget, hagree⟩, ⟨_, _, hdₒ, hget', ?_⟩⟩
    exact (sameButPicture_of_copyOf (User.fromStringAny_toFireObj hdec)).trans
      (sameButPicture_of_copyOf ho'')

end

/-! ### Ann asks Bob -/

open PlainKit

def bob : User := (makeUserInDB "bob" "b").addRequests [⟨"a", "b"⟩]

/-- Bob is logged in and has Ann's request in memory. -/
def askedByAnn : State := { signedUp [("a", "ann"), ("b", "bob")] with session := fun _ => some bob }

theorem unfriend_undoes_accept_askedByAnn : Restored askedByAnn
    (step (step askedByAnn (.call 0 .accept (.byUuid "a"))) (.call 0 .unfriend (.byUsername "ann")))
    0 bob "a" := by
  have hfound : (Query.byUuid "a").answer askedByAnn.store.users = .ok (makeUserInDB "ann" "a") := rfl
  have hagain : (Query.byUsername "ann").answer
      (step askedByAnn (.call 0 .accept (.byUuid "a"))).store.users =
        .ok ((makeUserInDB "ann" "a").addFriend "bob") := rfl
  have hcoherent : askedByAnn.store.Coherent askedByAnn.store.username :=
    (initial_signedUp (by decide)).wellKept.coherent
  exact unfriend_undoes_accept (s := askedByAnn) (c := 0) (m := bob)
    (d := (makeUserInDB "bob" "b").toFireObj) hcoherent rfl rfl (fun _ _ => rfl) hfound
    (by decide) (by decide) (by decide) (by decide) hagain rfl

end JamSession.Sequential
