import JamSession.Library.SymmetricRows
import JamSession.Sequential.System
import JamSession.Firestore.PlainKit

/-! Friendship as a relation, and when operations keep it symmetric. Every operation that
stores anything writes whole documents, that is, whole rows of the relation: the row of the
current user from the session's memory, which is as old as the login, and the row of the
other user from a fresh copy. By the theory of symmetric rows the writes keep the relation
symmetric exactly when memory and store name the same other users, apart from the pair the
operation is about, and the two new rows agree on that pair. -/

namespace JamSession.Sequential

open UserController SymmetricRows

section

variable [UIKit]

/-- The user `b` is named in `ns`. -/
def NamedIn (s : Store) (ns : List String) (b : String) : Prop :=
  ∃ n, s.username b = some n ∧ n ∈ ns

/-- `a`'s stored friends list names `b`. -/
def Lists (s : Store) (a b : String) : Prop := NamedIn s (s.friends a) b

/-- For every two users, each is in the stored friends list of the other, or neither is. -/
def FriendsSymmetric (s : Store) : Prop :=
  ∀ a b na nb, s.username a = some na → s.username b = some nb →
    (na ∈ s.friends b ↔ nb ∈ s.friends a)

/-- `m` names in memory the users that its stored friends list names, those of `S` apart. -/
def AgreesExcept (s : Store) (m : User) (S : List String) : Prop :=
  ∀ b n, b ∉ S → s.username b = some n → (n ∈ m.friends ↔ n ∈ s.friends m.uuid)

/-- The condition on an operation about the fetched user `o` in the session of `m`. It asks
nothing of an operation that stores nothing. A write of `m`'s own document needs an agreeing
memory. An accept that finds no pending request in memory stores `o`'s document alone, so
`m`'s has to name `o` already. Removing the first occurrence of a name on both sides has to
leave the name on both sides or on neither. -/
def KeepsSymmetry (s : Store) (m o : User) : Operation → Prop
  | .send => True
  | .accept => o.username ∉ m.friends →
      if ⟨o.uuid, m.uuid⟩ ∈ m.friendRequests then AgreesExcept s m [o.uuid, m.uuid]
      else o.uuid = m.uuid ∨ o.username ∈ s.friends m.uuid
  | .ignore => ⟨o.uuid, m.uuid⟩ ∈ m.friendRequests → AgreesExcept s m [m.uuid]
  | .unfriend => o.username ∈ m.friends → m.username ∈ o.friends →
      AgreesExcept s m [o.uuid, m.uuid] ∧ (o.uuid = m.uuid ∨
        (m.username ∈ o.friends.erase m.username ↔ o.username ∈ m.friends.erase o.username))
  | .block =>
      if o.username ∈ m.friends then
        AgreesExcept s m [o.uuid, m.uuid] ∧ (o.uuid = m.uuid ∨
          (m.username ∈ o.friends.erase m.username ↔ o.username ∈ m.friends.erase o.username))
      else AgreesExcept s m [m.uuid]

/-! ### Names and users -/

variable {s : Store}

theorem namedIn_iff {ns : List String} {k n : String} (hk : s.username k = some n) :
    NamedIn s ns k ↔ n ∈ ns := by
  constructor
  · rintro ⟨n', hn', hmem⟩
    rw [hk] at hn'
    rwa [Option.some.inj hn']
  · exact fun h => ⟨n, hk, h⟩

section Unique

variable (hu : ∀ j k n, s.username j = some n → s.username k = some n → j = k)
include hu

theorem namedIn_append {ns : List String} {b k n : String} (hk : s.username k = some n)
    (hb : b ≠ k) : NamedIn s (ns ++ [n]) b ↔ NamedIn s ns b := by
  refine exists_congr fun n' => and_congr_right fun hn' => ?_
  have hne : n' ≠ n := fun h => hb (hu b k n (h ▸ hn') hk)
  simp [hne]

theorem namedIn_erase {ns : List String} {b k n : String} (hk : s.username k = some n)
    (hb : b ≠ k) : NamedIn s (ns.erase n) b ↔ NamedIn s ns b := by
  refine exists_congr fun n' => and_congr_right fun hn' => ?_
  have hne : n' ≠ n := fun h => hb (hu b k n (h ▸ hn') hk)
  exact List.mem_erase_of_ne hne

end Unique

theorem agreesExcept_iff {m : User} {S : List String} :
    AgreesExcept s m S ↔ ∀ b, b ∉ S → (NamedIn s m.friends b ↔ Lists s m.uuid b) := by
  constructor
  · intro h b hb
    exact exists_congr fun n => and_congr_right fun hn => h b n hb hn
  · intro h b n hb hn
    have := h b hb
    rwa [Lists, namedIn_iff hn, namedIn_iff hn] at this

theorem agreesExcept_pair {m : User} {j : String} :
    AgreesExcept s m [j, m.uuid] ↔
      ∀ b, b ≠ j → b ≠ m.uuid → (NamedIn s m.friends b ↔ Lists s m.uuid b) := by
  simp [agreesExcept_iff]

theorem agreesExcept_self {m : User} :
    AgreesExcept s m [m.uuid] ↔ ∀ b, b ≠ m.uuid → (NamedIn s m.friends b ↔ Lists s m.uuid b) := by
  simp [agreesExcept_iff]

/-- A user document that holds a friends list holds a username. -/
theorem username_of_mem_friends (hs : s.Coherent s.username) {a n : String}
    (hn : n ∈ s.friends a) : ∃ na, s.username a = some na := by
  cases hd : s.users.get? a with
  | none => simp [Store.friends, hd] at hn
  | some d =>
    obtain ⟨u, rfl, rfl, -⟩ := hs a d hd
    exact ⟨u.username, Store.username_of_get? hd⟩

theorem friendsSymmetric_iff (hs : s.Coherent s.username) :
    FriendsSymmetric s ↔ Mutual (Lists s) := by
  constructor
  · intro h
    have half : ∀ a b, Lists s a b → Lists s b a := by
      rintro a b ⟨nb, hb, hmem⟩
      obtain ⟨na, ha⟩ := username_of_mem_friends hs hmem
      exact ⟨na, ha, (h a b na nb ha hb).mpr hmem⟩
    exact fun a b => ⟨half a b, half b a⟩
  · intro h a b na nb ha hb
    have := h b a
    rwa [Lists, Lists, namedIn_iff ha, namedIn_iff hb] at this

/-! ### Saved rows -/

theorem namedIn_congr {s' : Store} (hn : s'.username = s.username) : NamedIn s' = NamedIn s := by
  funext ns b
  unfold NamedIn
  rw [hn]

theorem lists_congr {s' : Store} (h : s'.users = s.users) : Lists s' = Lists s := by
  funext a b
  unfold Lists NamedIn Store.friends Store.username
  rw [h]

theorem lists_saved {u : User} (hu : u.Known s.username) :
    Lists (s.applyAll (saveUser u)) = setRow (Lists s) u.uuid (NamedIn s u.friends) := by
  have hname := Store.username_applyAll (saveUser_names hu)
  funext a
  unfold Lists
  rw [namedIn_congr hname, friends_applyAll_saveUser]
  by_cases ha : a = u.uuid
  · rw [if_pos ha, ha, setRow_self]
  · rw [if_neg ha, setRow_of_ne _ _ ha]

theorem lists_saved₂ {u v : User} (hu : u.Known s.username) (hv : v.Known s.username) :
    Lists (s.applyAll (saveUser u ++ saveUser v)) =
      setRow (setRow (Lists s) u.uuid (NamedIn s u.friends)) v.uuid (NamedIn s v.friends) := by
  have hname := Store.username_applyAll (saveUser_names hu)
  rw [Store.applyAll_append, lists_saved (by rwa [hname]), lists_saved hu, namedIn_congr hname]

/-! ### One operation -/

section Operation

variable {m o : User} (hm : m.Known s.username) (hR : Mutual (Lists s))
include hm hR

theorem mutual_ignore : Mutual (Lists (s.applyAll (ignoreFriendRequest o m).writes)) ↔
    KeepsSymmetry s m o .ignore := by
  by_cases hr : ⟨o.uuid, m.uuid⟩ ∈ m.friendRequests
  · have hrow := lists_saved (u := m.removeRequest ⟨o.uuid, m.uuid⟩) hm
    rw [ignoreFriendRequest_pending hr, Store.applyAll_cons, saveData_eq_saveUser,
      lists_congr (users_applyAll_congr (s.apply_deleteRequest_users _ _) _), hrow,
      mutual_setRow_iff hR]
    simp only [KeepsSymmetry, hr, true_implies, agreesExcept_self]
    rfl
  · rw [ignoreFriendRequest_missing hr]
    exact iff_of_true hR (fun h => absurd h hr)

variable (ho : s.Fetched s.username o)

include ho in
/-- Saving changed copies `v` and `w` of two different users, the changes being on the pair
of the two alone. -/
theorem mutual_pair {v w : User} (hne : o.uuid ≠ m.uuid) (hv : v.uuid = o.uuid)
    (hw : w.uuid = m.uuid) (hon : v.username = o.username) (hmn : w.username = m.username)
    (hof : ∀ b, b ≠ m.uuid → (NamedIn s v.friends b ↔ NamedIn s o.friends b))
    (hmf : ∀ b, b ≠ o.uuid → (NamedIn s w.friends b ↔ NamedIn s m.friends b)) :
    Mutual (Lists (s.applyAll (saveUser v ++ saveUser w))) ↔
      AgreesExcept s m [o.uuid, m.uuid] ∧
        (m.username ∈ v.friends ↔ o.username ∈ w.friends) := by
  have hok : v.Known s.username := by rw [User.Known, hv, hon]; exact ho.known
  have hmk : w.Known s.username := by rw [User.Known, hw, hmn]; exact hm
  rw [lists_saved₂ hok hmk, hv, hw, mutual_setRow₂_iff hR hne, agreesExcept_pair,
    namedIn_iff hm, namedIn_iff ho.known]
  constructor
  · rintro ⟨-, hp, hq⟩
    exact ⟨fun b hbo hbm => (hmf b hbo).symm.trans (hp b hbo hbm), hq⟩
  · rintro ⟨hp, hq⟩
    refine ⟨fun b hbo hbm => ?_, fun b hbo hbm => (hmf b hbo).trans (hp b hbo hbm), hq⟩
    rw [hof b hbm, ho.friends]
    rfl

/-- Saving a changed `w` last, when the other copy has the same uuid. -/
theorem mutual_self {v w : User} (hv : v.uuid = m.uuid) (hw : w.uuid = m.uuid)
    (hon : v.username = m.username) (hmn : w.username = m.username)
    (hmf : ∀ b, b ≠ m.uuid → (NamedIn s w.friends b ↔ NamedIn s m.friends b)) :
    Mutual (Lists (s.applyAll (saveUser v ++ saveUser w))) ↔ AgreesExcept s m [m.uuid] := by
  have hok : v.Known s.username := by rw [User.Known, hv, hon]; exact hm
  have hmk : w.Known s.username := by rw [User.Known, hw, hmn]; exact hm
  rw [lists_saved₂ hok hmk, hv, hw, setRow_setRow, mutual_setRow_iff hR, agreesExcept_self]
  exact forall_congr' fun b => imp_congr_right fun hb => iff_congr (hmf b hb) Iff.rfl

variable (hu : ∀ j k n, s.username j = some n → s.username k = some n → j = k)
include ho hu

theorem mutual_accept :
    Mutual (Lists (s.applyAll (acceptFriendRequest o m :: (acceptDeleted o m false).writes))) ↔
      KeepsSymmetry s m o .accept := by
  rw [Store.applyAll_cons, acceptFriendRequest,
    lists_congr (users_applyAll_congr (s.apply_deleteRequest_users _ _) _)]
  by_cases hf : o.username ∈ m.friends
  · rw [acceptDeleted_friend hf]
    exact iff_of_true hR (fun h => absurd hf h)
  by_cases hr : ⟨o.uuid, m.uuid⟩ ∈ m.friendRequests
  · rw [acceptDeleted_pending hf hr, saveData_eq_saveUser]
    simp only [KeepsSymmetry, hf, hr, not_false_eq_true, true_implies, if_true]
    by_cases hne : o.uuid = m.uuid
    · have hname := ho.known.username_eq hm hne
      rw [mutual_self (v := o.addFriend _) (w := (m.addFriend _).removeRequest _) hm hR hne rfl
        hname rfl (fun b hb => namedIn_append hu (hname ▸ hm) hb), hne]
      simp [AgreesExcept]
    · rw [mutual_pair (v := o.addFriend _) (w := (m.addFriend _).removeRequest _) hm hR ho hne
        rfl rfl rfl rfl (fun b hb => namedIn_append hu hm hb)
        (fun b hb => namedIn_append hu ho.known hb)]
      simp [User.addFriend, User.removeRequest]
  · have hok : (o.addFriend m.username).Known s.username := ho.known
    rw [acceptDeleted_missing hf hr, lists_saved hok, mutual_setRow_iff hR]
    simp only [KeepsSymmetry, hf, hr, not_false_eq_true, true_implies, if_false]
    -- off the pair the row of `o` is what it was
    have hrow : ∀ b, b ≠ m.uuid →
        (NamedIn s (o.addFriend m.username).friends b ↔ Lists s o.uuid b) := fun b hb => by
      refine (namedIn_append hu hm hb).trans ?_
      rw [ho.friends]
      rfl
    constructor
    · intro h
      by_cases hne : o.uuid = m.uuid
      · exact Or.inl hne
      · have hon : Lists s o.uuid m.uuid :=
          (h m.uuid (Ne.symm hne)).mp ⟨m.username, hm, by simp [User.addFriend]⟩
        exact Or.inr ((namedIn_iff ho.known).mp ((hR _ _).mp hon))
    · intro h b hb
      by_cases hbm : b = m.uuid
      · subst hbm
        have hmo : Lists s m.uuid o.uuid :=
          (namedIn_iff ho.known).mpr (h.resolve_left (Ne.symm hb))
        exact iff_of_true ⟨m.username, hm, by simp [User.addFriend]⟩ ((hR _ _).mp hmo)
      · exact hrow b hbm

/-- The two documents of a mutual unfriending. -/
theorem mutual_removed :
    Mutual (Lists (s.applyAll
      (saveUser (o.removeFriend m.username) ++ saveUser (m.removeFriend o.username)))) ↔
      AgreesExcept s m [o.uuid, m.uuid] ∧ (o.uuid = m.uuid ∨
        (m.username ∈ o.friends.erase m.username ↔ o.username ∈ m.friends.erase o.username)) := by
  by_cases hne : o.uuid = m.uuid
  · have hname := ho.known.username_eq hm hne
    rw [mutual_self (v := o.removeFriend _) (w := m.removeFriend _) hm hR hne rfl hname rfl
      (fun b hb => namedIn_erase hu (hname ▸ hm) hb), hne]
    simp [AgreesExcept]
  · rw [mutual_pair (v := o.removeFriend _) (w := m.removeFriend _) hm hR ho hne rfl rfl rfl rfl
      (fun b hb => namedIn_erase hu hm hb) (fun b hb => namedIn_erase hu ho.known hb)]
    simp [User.removeFriend, hne]

theorem mutual_unfriend : Mutual (Lists (s.applyAll (unfriendUser m o).writes)) ↔
    KeepsSymmetry s m o .unfriend := by
  by_cases hf : o.username ∈ m.friends
  · by_cases hf' : m.username ∈ o.friends
    · rw [unfriendUser_mutual hf hf', saveData_eq_saveUser, mutual_removed hm hR ho hu]
      simp only [KeepsSymmetry, hf, hf', true_implies]
    · rw [unfriendUser_oneSided hf hf']
      exact iff_of_true hR (fun _ h => absurd h hf')
  · rw [unfriendUser_stranger hf]
    exact iff_of_true hR (fun h => absurd h hf)

theorem mutual_block : Mutual (Lists (s.applyAll (blockUser m o).writes)) ↔
    KeepsSymmetry s m o .block := by
  have hrow : ∀ (t : Store) (u : User), t.username = s.username → u.uuid = m.uuid →
      u.username = m.username → Lists (t.applyAll (saveUser u)) =
        setRow (Lists t) m.uuid (NamedIn s u.friends) := fun t u ht hu' hn => by
    rw [lists_saved (by rw [User.Known, ht, hu', hn]; exact hm), hu', namedIn_congr ht]
  rw [blockUser_eq, saveData_eq_saveUser, Store.applyAll_append]
  by_cases hf : o.username ∈ m.friends
  · simp only [KeepsSymmetry, hf, if_true]
    by_cases hf' : m.username ∈ o.friends
    · -- the last write stores the row that the unfriending stored
      have hok : (o.removeFriend m.username).Known s.username := ho.known
      have hmk : (m.removeFriend o.username).Known s.username := hm
      rw [unfriendUser_mutual hf hf', ← mutual_removed hm hR ho hu, saveData_eq_saveUser,
        hrow _ ((m.removeFriend o.username).addBlocked o.username)
          (Store.username_applyAll fun w hw => ?_) rfl rfl, lists_saved₂ hok hmk]
      · simp only [User.removeFriend, User.addBlocked, setRow_setRow]
      · rcases List.mem_append.mp hw with hw | hw
        · exact saveUser_names hok w hw
        · exact saveUser_names hmk w hw
    · -- `o`'s document does not name `m`, and removing a name it does not hold changes nothing
      have hsame : (o.removeFriend m.username).friends = o.friends := List.erase_of_not_mem hf'
      have hoj : NamedIn s (o.removeFriend m.username).friends = Lists s o.uuid := by
        rw [hsame, ho.friends]
        rfl
      have hok : (o.removeFriend m.username).Known s.username := ho.known
      have hmk : (m.removeFriend o.username).Known s.username := hm
      rw [unfriendUser_oneSided hf hf', ← mutual_removed hm hR ho hu, lists_saved₂ hok hmk, hoj,
        Store.applyAll_nil, hrow s ((m.removeFriend o.username).addBlocked o.username) rfl rfl rfl]
      have hself : setRow (Lists s) (o.removeFriend m.username).uuid (Lists s o.uuid) = Lists s :=
        setRow_eq_self _ rfl
      rw [hself]
      rfl
  · rw [unfriendUser_stranger hf, Store.applyAll_nil,
      hrow s (m.addBlocked o.username) rfl rfl rfl, mutual_setRow_iff hR]
    simp only [KeepsSymmetry, hf, if_false, agreesExcept_self]
    rfl

/-- An operation keeps the symmetry exactly when it meets its condition. -/
theorem mutual_perform (op : Operation) :
    Mutual (Lists (s.applyAll (perform m o op).writes)) ↔ KeepsSymmetry s m o op := by
  cases op with
  | send =>
    have hsend := users_applyAll_sendFriendRequest s m o
    simp only [perform, KeepsSymmetry, lists_congr hsend, iff_true]
    exact hR
  | accept => exact mutual_accept hm hR ho hu
  | ignore => exact mutual_ignore hm hR
  | unfriend => exact mutual_unfriend hm hR ho hu
  | block => exact mutual_block hm hR ho hu

end Operation

/-! ### Runs -/

/-- A step from a symmetric state keeps the symmetry exactly when it meets its condition. -/
theorem friendsSymmetric_step {s : State} (hs : WellKept s) (hR : FriendsSymmetric s.store)
    (a : Action) : FriendsSymmetric (step s a).store ↔ OnCall KeepsSymmetry s a := by
  rw [friendsSymmetric_iff (hs.step a).coherent]
  have hR' := (friendsSymmetric_iff hs.coherent).mp hR
  obtain ⟨c, op, q, m, o, rfl, hm, ho, hstep⟩ | ⟨hno, hidle⟩ := step_cases s a
  · rw [hstep, onCall_iff hm ho]
    exact mutual_perform (hs.sessions c m hm) hR' (hs.coherent.fetched ho) hs.unique op
  · rw [hidle.store]
    exact iff_of_true hR' (hno _)

/-- Friendship is symmetric in every state of a run if and only if every operation of the run
meets its condition. -/
theorem friendsSymmetric_iff_steps {s : State} (hs : Initial s) (as : List Action) :
    Runs.Always step (fun s => FriendsSymmetric s.store) s as ↔
      Runs.Each step (OnCall KeepsSymmetry) s as := by
  have hinit : FriendsSymmetric s.store := fun a b na nb _ _ => by simp [hs.friends]
  apply Runs.always_iff_each (I := fun s => WellKept s ∧ FriendsSymmetric s.store)
  · exact fun s h => h.2
  · exact fun s a h => friendsSymmetric_step h.1 h.2 a
  · exact fun s a h hC => ⟨h.1.step a, (friendsSymmetric_step h.1 h.2 a).mpr hC⟩
  · exact ⟨hs.wellKept, hinit⟩

end

open PlainKit

/-- Bob accepts Ann's request, which her session does not notice; then Ann accepts Cat's and
stores her own document from memory, without Bob. -/
def staleAccept : List Action :=
  [.login 0 "a", .login 1 "b", .login 2 "c", .call 0 .send (.byUsername "bob"), .load 1,
    .call 1 .accept (.byUuid "a"), .call 2 .send (.byUsername "ann"), .load 0,
    .call 0 .accept (.byUuid "c")]

theorem staleAccept_asymmetric :
    let s := signedUp [("a", "ann"), ("b", "bob"), ("c", "cat")]
    Initial s ∧ (Runs.run step s staleAccept).store.friends "a" = ["cat"] ∧
      (Runs.run step s staleAccept).store.friends "b" = ["ann"] ∧
      ¬ Runs.Always step (fun s => FriendsSymmetric s.store) s staleAccept := by
  intro s
  have ha : (Runs.run step s staleAccept).store.friends "a" = ["cat"] := by decide
  have hb : (Runs.run step s staleAccept).store.friends "b" = ["ann"] := by decide
  refine ⟨initial_signedUp (by decide), ha, hb, fun h => ?_⟩
  have hsym := h.last "a" "b" "ann" "bob" (by decide)
    (by decide)
  rw [ha, hb] at hsym
  exact absurd (hsym.mp (by simp)) (by decide)

theorem friendsSymmetric_iff_steps_staleAccept :
    Runs.Always step (fun s => FriendsSymmetric s.store)
        (signedUp [("a", "ann"), ("b", "bob"), ("c", "cat")]) staleAccept ↔
      Runs.Each step (OnCall KeepsSymmetry) (signedUp [("a", "ann"), ("b", "bob"), ("c", "cat")])
        staleAccept :=
  friendsSymmetric_iff_steps (initial_signedUp (by decide)) staleAccept

end JamSession.Sequential
