import JamSession.Library.SocialGraph
import JamSession.Sequential.Symmetry
import JamSession.Sequential.WellFormed

/-! What the friend system is for: a social graph. The graph is read off the store, the users'
uuids being its vertices, and each operation is an act on the graph. The code carries out the
act as long as the session that runs the operation is up to date, which is the one thing it
relies on, as every operation writes whole documents from the session's memory. -/

namespace JamSession.Sequential

open UserController

section

variable [UIKit]

/-- `a`'s stored blocked list names `b`. -/
def HasBlocked (s : Store) (a b : String) : Prop := NamedIn s (s.blocked a) b

/-- A request from `a` to `b` is stored. -/
def Pending (s : Store) (a b : String) : Prop :=
  ((s.friendRequests b).get? (requestTitle a b)).isSome

/-- The store holds the social graph, each friendship on both sides. -/
structure Shows (s : Store) (G : SocialGraph String) : Prop where
  friends : ∀ a b, Lists s a b ↔ s(a, b) ∈ G.friends
  blocked : ∀ a b, HasBlocked s a b ↔ (a, b) ∈ G.blocked
  pending : ∀ a b, Pending s a b ↔ (a, b) ∈ G.pending

/-- The graph that a store shows, if it shows one. -/
def socialGraph (s : Store) : SocialGraph String where
  friends := Sym2.fromRel (r := fun a b => Lists s a b ∧ Lists s b a) ⟨fun _ _ h => h.symm⟩
  blocked := {p | HasBlocked s p.1 p.2}
  pending := {p | Pending s p.1 p.2}

/-- The act of an operation in the session of the user `m`, about the user `o`. -/
def Operation.act (m o : String) : Operation → SocialGraph.Act String
  | .send => .request m o
  | .accept => .accept o m
  | .ignore => .ignore o m
  | .unfriend => .unfriend m o
  | .block => .block m o

/-- The acts of a step: one if it performs an operation. -/
def acts (s : State) : Action → List (SocialGraph.Act String)
  | .call c op q => match s.session c, q.answer s.store.users with
    | some m, .ok o => [op.act m.uuid o.uuid]
    | _, _ => []
  | _ => []

/-- The session of `m` has in memory what is stored about its user, and each request once. -/
structure UpToDate (s : Store) (m : User) : Prop where
  friends : m.friends = s.friends m.uuid
  blocked : m.blocked = s.blocked m.uuid
  nodup : m.friendRequests.Nodup
  requests : ∀ r, r ∈ m.friendRequests ↔
    r.receivingUser = m.uuid ∧ Pending s r.initialUser m.uuid

/-- The condition on an operation: the session is up to date, and an accept is of a request. -/
def ActsOnCurrent (s : Store) (m o : User) (op : Operation) : Prop :=
  UpToDate s m ∧ (op = .accept → ⟨o.uuid, m.uuid⟩ ∈ m.friendRequests)

/-! ### Names -/

section Names

variable {s : Store} (hu : ∀ j k n, s.username j = some n → s.username k = some n → j = k)
include hu

/-- A list with one more name. -/
theorem namedIn_snoc {ns : List String} {b k n : String} (hk : s.username k = some n) :
    NamedIn s (ns ++ [n]) b ↔ NamedIn s ns b ∨ b = k := by
  by_cases hb : b = k
  · subst hb
    exact iff_of_true ⟨n, hk, by simp⟩ (Or.inr rfl)
  · rw [namedIn_append hu hk hb, or_iff_left hb]

/-- A list without its only occurrence of a name. -/
theorem namedIn_erase_nodup {ns : List String} (hns : ns.Nodup) {b k n : String}
    (hk : s.username k = some n) : NamedIn s (ns.erase n) b ↔ NamedIn s ns b ∧ b ≠ k := by
  by_cases hb : b = k
  · subst hb
    rw [namedIn_iff hk]
    exact iff_of_false (fun h => (hns.mem_erase_iff.mp h).1 rfl) fun h => h.2 rfl
  · rw [namedIn_erase hu hk hb, and_iff_left hb]

end Names

/-- Lists depend on the rows and on the names. -/
theorem lists_eq {s s' : Store} (hname : s'.username = s.username)
    (h : ∀ k, s'.friends k = s.friends k) : Lists s' = Lists s := by
  funext a
  unfold Lists
  rw [namedIn_congr hname, h]

theorem hasBlocked_eq {s s' : Store} (hname : s'.username = s.username)
    (h : ∀ k, s'.blocked k = s.blocked k) : HasBlocked s' = HasBlocked s := by
  funext a
  unfold HasBlocked
  rw [namedIn_congr hname, h]

/-- Saving a user with the stored lists. -/
theorem friends_saved_current {s : Store} {u : User} (hf : u.friends = s.friends u.uuid)
    (k : String) : (s.applyAll (saveUser u)).friends k = s.friends k := by
  rw [friends_applyAll_saveUser]
  by_cases hk : k = u.uuid
  · rw [if_pos hk, hk, hf]
  · rw [if_neg hk]

theorem blocked_saved_current {s : Store} {u : User} (hb : u.blocked = s.blocked u.uuid)
    (k : String) : (s.applyAll (saveUser u)).blocked k = s.blocked k := by
  rw [blocked_applyAll_saveUser]
  by_cases hk : k = u.uuid
  · rw [if_pos hk, hk, hb]
  · rw [if_neg hk]

/-- The rows after a copy `v` of another user and then a copy `w` are saved, when `v` has the
stored blocked list. -/
theorem rows_saved₂ {s : Store} {v w : User} (hv : v.blocked = s.blocked v.uuid) (k : String) :
    (s.applyAll (saveUser v ++ saveUser w)).friends k =
        (if k = w.uuid then w.friends else if k = v.uuid then v.friends else s.friends k) ∧
      (s.applyAll (saveUser v ++ saveUser w)).blocked k =
        if k = w.uuid then w.blocked else s.blocked k := by
  rw [Store.applyAll_append, friends_applyAll_saveUser, friends_applyAll_saveUser,
    blocked_applyAll_saveUser, blocked_saved_current hv]
  exact ⟨rfl, rfl⟩

/-! ### Stored requests -/

section Requests

variable {s : Store}

theorem pending_set (r : FriendRequest) (receiver a b : String) :
    Pending (s.apply (.setRequest receiver (requestTitle r.initialUser r.receivingUser)
        r.toFireObj)) a b ↔
      Pending s a b ∨
        b = receiver ∧ requestTitle a b = requestTitle r.initialUser r.receivingUser := by
  unfold Pending
  rw [Store.apply_setRequest_get?]
  split_ifs with h
  · exact iff_of_true rfl (Or.inr h)
  · exact (or_iff_left h).symm

theorem pending_delete (o receiver a b : String) :
    Pending (s.apply (.deleteRequest receiver (requestTitle o receiver))) a b ↔
      Pending s a b ∧ (a, b) ≠ (o, receiver) := by
  have hiff : b = receiver ∧ requestTitle a b = requestTitle o receiver ↔
      (a, b) = (o, receiver) := by
    rw [Prod.mk.injEq]
    constructor
    · rintro ⟨rfl, ht⟩
      exact ⟨requestTitle_inj.mp ht, rfl⟩
    · rintro ⟨rfl, rfl⟩
      exact ⟨rfl, rfl⟩
  unfold Pending
  rw [Store.apply_deleteRequest_get?]
  simp only [hiff]
  split_ifs with h
  · exact iff_of_false (by simp) fun hp => hp.2 h
  · exact (and_iff_left h).symm

/-- Saving a user whose requests are stored leaves the requests as they are. -/
theorem pending_saveUser {u : User}
    (h : ∀ r ∈ u.friendRequests, r.receivingUser = u.uuid ∧ Pending s r.initialUser u.uuid)
    (a b : String) : Pending (s.applyAll (saveUser u)) a b ↔ Pending s a b := by
  suffices hall : ∀ (rs : List FriendRequest) (t : Store), (∀ r ∈ rs, r.receivingUser = u.uuid ∧
      Pending t r.initialUser u.uuid) → (Pending (t.applyAll (rs.map fun req =>
        .setRequest u.uuid (requestTitle req.initialUser req.receivingUser) req.toFireObj)) a b ↔
      Pending t a b) from hall u.friendRequests (s.apply (.setUser u.uuid u.toFireObj)) h
  intro rs
  induction rs with
  | nil => exact fun t _ => Iff.rfl
  | cons r rs ih =>
    intro t ht
    obtain ⟨hrec, hstored⟩ := ht r List.mem_cons_self
    have hsame : ∀ a b, Pending (t.apply (.setRequest u.uuid
        (requestTitle r.initialUser r.receivingUser) r.toFireObj)) a b ↔ Pending t a b := by
      intro a b
      rw [pending_set, or_iff_left_iff_imp]
      rintro ⟨rfl, htitle⟩
      rw [hrec, requestTitle_inj] at htitle
      rwa [htitle]
    rw [List.map_cons, Store.applyAll_cons, ih, hsame]
    intro r' hr'
    obtain ⟨hrec', hstored'⟩ := ht r' (List.mem_cons_of_mem r hr')
    exact ⟨hrec', (hsame _ _).mpr hstored'⟩

end Requests

/-! ### One operation -/

/-- The session after an unfriend, whichever branch it took. -/
theorem unfriendUser_session (m o : User) :
    (unfriendUser m o).currentUser = m.removeFriend o.username := by
  by_cases hf : o.username ∈ m.friends
  · by_cases hf' : m.username ∈ o.friends
    · rw [unfriendUser_mutual hf hf']
    · rw [unfriendUser_oneSided hf hf']
  · rw [unfriendUser_stranger hf, User.removeFriend, List.erase_of_not_mem hf]

section Operation

variable {s s' : Store} {m o : User} {G : SocialGraph String}
  (hu : ∀ j k n, s.username j = some n → s.username k = some n → j = k)
  (hm : m.Known s.username) (ho : s.Fetched s.username o)

/-- The rows of `m` and `o` have the other's name appended. -/
def Joined (s s' : Store) (m o : User) : Prop :=
  ∀ k, s'.friends k = if k = m.uuid then s.friends k ++ [o.username]
    else if k = o.uuid then s.friends k ++ [m.username] else s.friends k

/-- The rows of `m` and `o` have the other's name removed. -/
def Parted (s s' : Store) (m o : User) : Prop :=
  ∀ k, s'.friends k = if k = m.uuid then (s.friends k).erase o.username
    else if k = o.uuid then (s.friends k).erase m.username else s.friends k

include hu hm ho

theorem lists_joined (hname : s'.username = s.username) (h : Joined s s' m o) (a b : String) :
    Lists s' a b ↔ s(a, b) = s(o.uuid, m.uuid) ∨ Lists s a b := by
  unfold Lists
  rw [namedIn_congr hname, h]
  split_ifs with ham hao
  · subst ham
    rw [namedIn_snoc hu ho.known, Sym2.eq_swap (a := o.uuid), Sym2.congr_right, or_comm]
  · subst hao
    rw [namedIn_snoc hu hm, Sym2.congr_right, or_comm]
  · have hne : s(a, b) ≠ s(o.uuid, m.uuid) := by simp [ham, hao]
    rw [or_iff_right hne]

theorem lists_parted (hname : s'.username = s.username) (hns : ∀ k, (s.friends k).Nodup)
    (h : Parted s s' m o) (a b : String) :
    Lists s' a b ↔ Lists s a b ∧ s(a, b) ≠ s(m.uuid, o.uuid) := by
  unfold Lists
  rw [namedIn_congr hname, h]
  split_ifs with ham hao
  · subst ham
    rw [namedIn_erase_nodup hu (hns _) ho.known, ne_eq, ne_eq, Sym2.congr_right]
  · subst hao
    rw [namedIn_erase_nodup hu (hns _) hm, ne_eq, ne_eq, Sym2.eq_swap (a := m.uuid),
      Sym2.congr_right]
  · have hne : s(a, b) ≠ s(m.uuid, o.uuid) := by simp [ham, hao]
    rw [and_iff_left hne]

end Operation

section Acts

variable {s : Store} {m o : User} {G : SocialGraph String} (hG : Shows s G)
  (hu : ∀ j k n, s.username j = some n → s.username k = some n → j = k)
  (hns : ∀ k, (s.friends k).Nodup) (hm : m.Known s.username) (ho : s.Fetched s.username o)
  (hcur : UpToDate s m)
include hG hm ho hcur

/-- The two sides of a friendship, in the session and in the copy. -/
theorem listed_iff : (o.username ∈ m.friends ↔ s(m.uuid, o.uuid) ∈ G.friends) ∧
    (m.username ∈ o.friends ↔ s(m.uuid, o.uuid) ∈ G.friends) := by
  rw [hcur.friends, ho.friends, ← namedIn_iff ho.known, ← namedIn_iff hm]
  refine ⟨hG.friends m.uuid o.uuid, ?_⟩
  rw [Sym2.eq_swap]
  exact hG.friends o.uuid m.uuid

omit hG hm ho in
/-- The requests of the session but one are stored, whether or not the one is. -/
theorem stored_of_current (a : String) : ∀ r ∈ m.friendRequests.erase ⟨a, m.uuid⟩,
    r.receivingUser = m.uuid ∧
      Pending (s.apply (.deleteRequest m.uuid (requestTitle a m.uuid))) r.initialUser m.uuid := by
  intro r hr
  obtain ⟨hne, hr⟩ := hcur.nodup.mem_erase_iff.mp hr
  obtain ⟨hrec, hstored⟩ := (hcur.requests r).mp hr
  refine ⟨hrec, (pending_delete a m.uuid r.initialUser m.uuid).mpr ⟨hstored, fun he => hne ?_⟩⟩
  obtain ⟨i, j⟩ := r
  simp_all

theorem shows_send : Shows (s.applyAll (sendFriendRequest m o))
    (G.step (.request m.uuid o.uuid)) := by
  have hlists := lists_congr (users_applyAll_sendFriendRequest s m o)
  have hblocked := Store.blocked_congr (users_applyAll_sendFriendRequest s m o)
  have hname : (s.applyAll (sendFriendRequest m o)).username = s.username := by
    funext k
    rw [Store.username, users_applyAll_sendFriendRequest, Store.username]
  refine ⟨fun a b => hlists ▸ hG.friends a b, fun a b => ?_, fun a b => ?_⟩
  · rw [HasBlocked, namedIn_congr hname, hblocked]
    exact hG.blocked a b
  · have hreq := pending_set (s := s) ⟨m.uuid, o.uuid⟩ o.uuid a b
    have hlisted := (listed_iff hG hm ho hcur).1
    simp only [SocialGraph.step, Set.mem_union, Set.mem_ofPred_eq, ← hG.pending, ← hlisted,
      Prod.mk.injEq]
    by_cases hf : o.username ∈ m.friends
    · simp [sendFriendRequest, hf]
    · rw [sendFriendRequest, if_neg hf, Store.applyAll_cons, Store.applyAll_nil, hreq]
      refine or_congr_right ?_
      constructor
      · rintro ⟨rfl, ht⟩
        exact ⟨⟨requestTitle_inj.mp ht, rfl⟩, hf⟩
      · rintro ⟨⟨rfl, rfl⟩, -⟩
        exact ⟨rfl, rfl⟩

theorem shows_ignore : Shows (s.applyAll (ignoreFriendRequest o m).writes)
    (G.step (.ignore o.uuid m.uuid)) := by
  have hname := Store.username_applyAll (perform_names hm ho.known .ignore).2
  simp only [perform] at hname
  have hpending : ∀ a b, Pending (s.applyAll (ignoreFriendRequest o m).writes) a b ↔
      Pending s a b ∧ (a, b) ≠ (o.uuid, m.uuid) := by
    intro a b
    by_cases hr : ⟨o.uuid, m.uuid⟩ ∈ m.friendRequests
    · rw [ignoreFriendRequest_pending hr, Store.applyAll_cons, saveData_eq_saveUser,
        pending_saveUser (stored_of_current hcur o.uuid), pending_delete]
    · rw [ignoreFriendRequest_missing hr, Store.applyAll_nil, iff_self_and]
      rintro hstored ⟨⟩
      exact hr ((hcur.requests _).mpr ⟨rfl, hstored⟩)
  have hrows : ∀ k, (s.applyAll (ignoreFriendRequest o m).writes).friends k = s.friends k ∧
      (s.applyAll (ignoreFriendRequest o m).writes).blocked k = s.blocked k := by
    intro k
    by_cases hr : ⟨o.uuid, m.uuid⟩ ∈ m.friendRequests
    · rw [ignoreFriendRequest_pending hr, Store.applyAll_cons, saveData_eq_saveUser]
      have hf : (m.removeRequest ⟨o.uuid, m.uuid⟩).friends =
          (s.apply (acceptFriendRequest o m)).friends m.uuid := hcur.friends
      have hb : (m.removeRequest ⟨o.uuid, m.uuid⟩).blocked =
          (s.apply (acceptFriendRequest o m)).blocked m.uuid := hcur.blocked
      exact ⟨friends_saved_current hf k, blocked_saved_current hb k⟩
    · rw [ignoreFriendRequest_missing hr]
      exact ⟨rfl, rfl⟩
  refine ⟨fun a b => ?_, fun a b => ?_, fun a b => ?_⟩
  · rw [lists_eq hname fun k => (hrows k).1]
    exact hG.friends a b
  · rw [hasBlocked_eq hname fun k => (hrows k).2]
    exact hG.blocked a b
  · rw [hpending, hG.pending]
    rfl

omit hG hm hcur in
/-- Saving the copy of `o` with a changed friends list leaves the requests alone. -/
theorem pending_saved_fetched (t : Store) (v : User) (hv : v.friendRequests = o.friendRequests)
    (a b : String) : Pending (t.applyAll (saveUser v)) a b ↔ Pending t a b := by
  refine pending_saveUser (fun r hr => ?_) a b
  rw [hv, ho.friendRequests] at hr
  cases hr

/-- An unfriend removes the friendship, if there is one. -/
theorem parted_unfriendUser : Parted s (s.applyAll (unfriendUser m o).writes) m o := by
  intro k
  obtain ⟨hmo, hom⟩ := listed_iff hG hm ho hcur
  by_cases hf : o.username ∈ m.friends
  · have hf' : m.username ∈ o.friends := hom.mpr (hmo.mp hf)
    rw [unfriendUser_mutual hf hf', saveData_eq_saveUser, (rows_saved₂ (v := o.removeFriend _)
      (w := m.removeFriend _) ho.blocked k).1]
    simp only [User.removeFriend, hcur.friends, ho.friends]
    split_ifs with hkm hko
    · rw [hkm]
    · rw [hko]
    · rfl
  · have hf' : m.username ∉ o.friends := fun h => hf (hmo.mpr (hom.mp h))
    rw [unfriendUser_stranger hf, Store.applyAll_nil]
    split_ifs with hkm hko
    · rw [hkm, ← hcur.friends, List.erase_of_not_mem hf]
    · rw [hko, ← ho.friends, List.erase_of_not_mem hf']
    · rfl

theorem kept_unfriendUser :
    (∀ k, (s.applyAll (unfriendUser m o).writes).blocked k = s.blocked k) ∧
      ∀ a b, Pending (s.applyAll (unfriendUser m o).writes) a b ↔ Pending s a b := by
  obtain ⟨hmo, hom⟩ := listed_iff hG hm ho hcur
  by_cases hf : o.username ∈ m.friends
  · rw [unfriendUser_mutual hf (hom.mpr (hmo.mp hf)), saveData_eq_saveUser]
    refine ⟨fun k => ?_, fun a b => ?_⟩
    · rw [(rows_saved₂ (v := o.removeFriend _) (w := m.removeFriend _) ho.blocked k).2]
      split_ifs with hk
      · rw [hk]
        exact hcur.blocked
      · rfl
    · rw [Store.applyAll_append, pending_saveUser fun r hr => ?_,
        pending_saved_fetched ho _ (o.removeFriend _) rfl]
      obtain ⟨hrec, hstored⟩ := (hcur.requests r).mp hr
      exact ⟨hrec, (pending_saved_fetched ho _ (o.removeFriend _) rfl _ _).mpr hstored⟩
  · rw [unfriendUser_stranger hf]
    exact ⟨fun _ => rfl, fun _ _ => Iff.rfl⟩

include hu

theorem shows_accept (hr : ⟨o.uuid, m.uuid⟩ ∈ m.friendRequests) :
    Shows (s.applyAll (perform m o .accept).writes) (G.step (.accept o.uuid m.uuid)) := by
  have hname := Store.username_applyAll (perform_names hm ho.known .accept).2
  have hlisted := (listed_iff hG hm ho hcur).1
  rw [Sym2.eq_swap] at hlisted
  by_cases hf : o.username ∈ m.friends
  · -- a friend's request is only deleted
    have hwrites : (perform m o .accept).writes = [acceptFriendRequest o m] := by
      simp only [perform, acceptDeleted_friend hf]
    rw [hwrites] at hname ⊢
    refine ⟨fun a b => ?_, fun a b => ?_, fun a b => ?_⟩
    · rw [lists_eq hname fun _ => rfl, hG.friends, SocialGraph.step,
        Set.insert_eq_of_mem (hlisted.mp hf)]
    · rw [hasBlocked_eq hname fun _ => rfl]
      exact hG.blocked a b
    · exact (pending_delete o.uuid m.uuid a b).trans (and_congr_left fun _ => hG.pending a b)
  · have hwrites : (perform m o .accept).writes = acceptFriendRequest o m ::
        (saveUser (o.addFriend m.username) ++
          saveUser ((m.addFriend o.username).removeRequest ⟨o.uuid, m.uuid⟩)) := by
      simp only [perform, acceptDeleted_pending hf hr, saveData_eq_saveUser]
    rw [hwrites, Store.applyAll_cons] at hname ⊢
    have hrows := rows_saved₂ (s := s.apply (acceptFriendRequest o m))
      (v := o.addFriend m.username) (w := (m.addFriend o.username).removeRequest ⟨o.uuid, m.uuid⟩)
      ho.blocked
    refine ⟨fun a b => ?_, fun a b => ?_, fun a b => ?_⟩
    · rw [lists_joined hu hm ho hname fun k => ?_, hG.friends]
      · rfl
      · rw [(hrows k).1]
        simp only [User.addFriend, User.removeRequest, hcur.friends, ho.friends]
        split_ifs with hkm hko
        · rw [hkm]
        · rw [hko]
        · rfl
    · rw [hasBlocked_eq hname fun k => ?_, hG.blocked]
      · rfl
      · rw [(hrows k).2]
        split_ifs with hk
        · rw [hk]
          exact hcur.blocked
        · rfl
    · rw [Store.applyAll_append, pending_saveUser fun r hr => ?_,
        pending_saved_fetched ho _ (o.addFriend m.username) rfl]
      · exact (pending_delete o.uuid m.uuid a b).trans (and_congr_left fun _ => hG.pending a b)
      · obtain ⟨hrec, hstored⟩ := stored_of_current hcur o.uuid r hr
        exact ⟨hrec, (pending_saved_fetched ho _ (o.addFriend m.username) rfl _ _).mpr hstored⟩

include hns

theorem shows_unfriend : Shows (s.applyAll (unfriendUser m o).writes)
    (G.step (.unfriend m.uuid o.uuid)) := by
  have hname := Store.username_applyAll (unfriendUser_names hm ho.known).2
  obtain ⟨hblocked, hpending⟩ := kept_unfriendUser hG hm ho hcur
  refine ⟨fun a b => ?_, fun a b => ?_, fun a b => ?_⟩
  · rw [lists_parted hu hm ho hname hns (parted_unfriendUser hG hm ho hcur), hG.friends]
    rfl
  · rw [hasBlocked_eq hname hblocked]
    exact hG.blocked a b
  · rw [hpending]
    exact hG.pending a b

theorem shows_block : Shows (s.applyAll (blockUser m o).writes)
    (G.step (.block m.uuid o.uuid)) := by
  have hname := Store.username_applyAll (perform_names hm ho.known .block).2
  have hunfriended := shows_unfriend hG hu hns hm ho hcur
  have hkept := Store.username_applyAll (unfriendUser_names hm ho.known).2
  obtain ⟨hblocked, hpending⟩ := kept_unfriendUser hG hm ho hcur
  simp only [perform, blockUser_eq, Store.applyAll_append, saveData_eq_saveUser,
    unfriendUser_session] at hname ⊢
  have hsaved : ((m.removeFriend o.username).addBlocked o.username).friends =
      (s.applyAll (unfriendUser m o).writes).friends m.uuid := by
    rw [parted_unfriendUser hG hm ho hcur, if_pos rfl, ← hcur.friends]
    rfl
  have hrow : ∀ k, ((s.applyAll (unfriendUser m o).writes).applyAll
      (saveUser ((m.removeFriend o.username).addBlocked o.username))).blocked k =
        if k = m.uuid then s.blocked k ++ [o.username] else s.blocked k := by
    intro k
    rw [blocked_applyAll_saveUser, hblocked]
    simp only [User.addBlocked, User.removeFriend, hcur.blocked]
    split_ifs with hk
    · rw [hk]
    · rfl
  refine ⟨fun a b => ?_, fun a b => ?_, fun a b => ?_⟩
  · rw [lists_eq (hname.trans hkept.symm) (friends_saved_current hsaved)]
    exact hunfriended.friends a b
  · unfold HasBlocked
    rw [namedIn_congr hname, hrow]
    simp only [SocialGraph.step, Set.mem_insert_iff, Prod.mk.injEq, ← hG.blocked]
    split_ifs with ha
    · rw [namedIn_snoc hu ho.known, or_comm, and_iff_right ha]
      rfl
    · rw [or_iff_right fun h => ha h.1]
      rfl
  · rw [pending_saveUser fun r hr => ?_, hpending]
    · exact hG.pending a b
    · obtain ⟨hrec, hstored⟩ := (hcur.requests r).mp hr
      exact ⟨hrec, (hpending _ _).mpr hstored⟩

/-- An operation in an up-to-date session carries out its act. -/
theorem shows_perform {op : Operation} (hop : op = .accept → ⟨o.uuid, m.uuid⟩ ∈ m.friendRequests) :
    Shows (s.applyAll (perform m o op).writes) (G.step (op.act m.uuid o.uuid)) := by
  cases op with
  | send => exact shows_send hG hm ho hcur
  | accept => exact shows_accept hG hu hm ho hcur (hop rfl)
  | ignore => exact shows_ignore hG hm ho hcur
  | unfriend => exact shows_unfriend hG hu hns hm ho hcur
  | block => exact shows_block hG hu hns hm ho hcur

end Acts

/-! ### Runs -/

/-- No name is repeated in a friends list. -/
def NoRepeats (_ : String) (friends _ : List String) : Prop := friends.Nodup

omit [UIKit] in
theorem noRepeats_shrinks : Shrinks NoRepeats := fun _ _ _ x h => h.erase x

/-- The store shows the graph, and no list that a step may write repeats a name. -/
structure Implements (s : State) (G : SocialGraph String) : Prop where
  shows_store : Shows s.store G
  lists : AllLists NoRepeats s

variable {s : State} {G : SocialGraph String}

theorem Implements.nodup (h : Implements s G) (k : String) : (s.store.friends k).Nodup := by
  cases hf : s.store.friends k with
  | nil => exact List.nodup_nil
  | cons n ns =>
    have hmem : n ∈ s.store.friends k := hf ▸ List.mem_cons_self
    obtain ⟨name, hk⟩ := username_of_mem_friends h.lists.wellKept.coherent hmem
    exact hf ▸ h.lists.documents k name hk

/-- The lists that an operation in an up-to-date session appends to. -/
theorem Implements.keeps (h : Implements s G) {c : ℕ} {m o : User} (hm : s.session c = some m)
    (ho : s.store.Fetched s.store.username o) {op : Operation}
    (hC : ActsOnCurrent s.store m o op) : Keeps NoRepeats s.store m o op := by
  have hmem := h.lists.sessions c m hm
  obtain ⟨hmo, hom⟩ := listed_iff h.shows_store (h.lists.wellKept.sessions c m hm) ho hC.1
  cases op with
  | accept =>
    intro hf
    have hf' : m.username ∉ o.friends := fun hn => hf (hmo.mpr (hom.mp hn))
    rw [if_pos (hC.2 rfl)]
    exact ⟨fun _ => nodup_snoc.mpr ⟨hf', h.lists.documents.fetched ho⟩, nodup_snoc.mpr ⟨hf, hmem⟩⟩
  | block =>
    simp only [Keeps, unfriendUser_session]
    exact hmem.erase o.username
  | send => trivial
  | ignore => trivial
  | unfriend => trivial

/-- A step that performs no operation is no act. -/
theorem acts_idle {a : Action} (h : OnCall (fun _ _ _ _ => False) s a) : acts s a = [] := by
  cases a with
  | login c uuid => rfl
  | load c => rfl
  | call c op q =>
    simp only [acts]
    split
    · exact (h c op q _ _ rfl ‹_› ‹_›).elim
    · rfl

theorem Implements.step (h : Implements s G) {a : Action} (hC : OnCall ActsOnCurrent s a) :
    Implements (step s a) (Runs.run SocialGraph.step G (acts s a)) := by
  have hk := h.lists.wellKept
  refine ⟨?_, h.lists.preserved noRepeats_shrinks ?_ ?_⟩
  · obtain ⟨c, op, q, m, o, rfl, hm, ho, hstep⟩ | ⟨hno, hidle⟩ := step_cases s a
    · have hcall := (onCall_iff hm ho).mp hC
      simp only [hstep, acts, hm, ho]
      exact shows_perform h.shows_store hk.unique h.nodup (hk.sessions c m hm)
        (hk.coherent.fetched ho) hcall.1 hcall.2
    · rw [acts_idle (hno _), Runs.run_nil, hidle.store]
      exact h.shows_store
  · intro c op q m o ha hm ho
    exact h.keeps hm (hk.coherent.fetched ho) (hC c op q m o ha hm ho)
  · rintro c op q m o ha hm ho - hf
    exact nodup_snoc.mpr ⟨hf, h.lists.sessions c m hm⟩

theorem Initial.implements (hs : Initial s) : Implements s (socialGraph s.store) where
  shows_store := by
    have hnobody : ∀ a b, ¬ Lists s.store a b := by
      rintro a b ⟨n, -, hn⟩
      rw [hs.friends] at hn
      cases hn
    exact ⟨fun a b => by simp [socialGraph, hnobody], fun _ _ => Iff.rfl, fun _ _ => Iff.rfl⟩
  lists := hs.allLists fun _ _ _ => List.nodup_nil

theorem implements_run (hs : Initial s) {as : List Action}
    (hC : Runs.Each step (OnCall ActsOnCurrent) s as) : Implements (Runs.run step s as)
      (Runs.run SocialGraph.step (socialGraph s.store) (Runs.labels step acts s as)) :=
  Runs.simulates (R := Implements) (fun _ _ _ hC h => h.step hC) hs.implements hC

/-- When every operation is called in an up-to-date session, the store shows the social graph
that the operations make as acts. -/
theorem shows_run (hs : Initial s) {as : List Action}
    (hC : Runs.Each step (OnCall ActsOnCurrent) s as) : Shows (Runs.run step s as).store
      (Runs.run SocialGraph.step (socialGraph s.store) (Runs.labels step acts s as)) :=
  (implements_run hs hC).shows_store

/-- Then one user's stored friends list names another exactly if the last accept, unfriend or
block between the two was an accept. -/
theorem lists_iff_joinedLast (hs : Initial s) {as : List Action}
    (hC : Runs.Each step (OnCall ActsOnCurrent) s as) (a b : String) :
    Lists (Runs.run step s as).store a b ↔
      SocialGraph.JoinedLast s(a, b) (Runs.labels step acts s as) := by
  have hnobody : s(a, b) ∉ (socialGraph s.store).friends := by
    rw [← hs.implements.shows_store.friends]
    rintro ⟨n, -, hn⟩
    rw [hs.friends] at hn
    cases hn
  rw [(implements_run hs hC).shows_store.friends, SocialGraph.mem_friends_run]
  exact or_iff_left fun h => hnobody h.1

end

open PlainKit

/-- Ann sends Bob a request, and he accepts it. -/
def befriended : List Action :=
  [.login 0 "a", .login 1 "b", .call 0 .send (.byUsername "bob"), .load 1,
    .call 1 .accept (.byUuid "a")]

theorem actsOnCurrent_befriended :
    Runs.Each step (OnCall ActsOnCurrent) (signedUp [("a", "ann"), ("b", "bob")]) befriended := by
  have hnone : ∀ a b, ¬ Pending (signedUp [("a", "ann"), ("b", "bob")]).store a b := by
    intro a b h
    cases h
  -- once it is sent, it is the only request to Bob
  have hone : ∀ r, r ∈ [FriendRequest.mk "a" "b"] ↔ r.receivingUser = "b" ∧
      Pending ((signedUp [("a", "ann"), ("b", "bob")]).store.apply (.setRequest "b"
        (requestTitle "a" "b") (FriendRequest.mk "a" "b").toFireObj)) r.initialUser "b" := by
    rintro ⟨i, j⟩
    rw [List.mem_singleton, FriendRequest.mk.injEq, pending_set ⟨"a", "b"⟩, requestTitle_inj,
      or_iff_right (hnone _ _), and_iff_right rfl, and_comm]
  refine ⟨by simp [OnCall], by simp [OnCall], ?_, by simp [OnCall], ?_, trivial⟩
  · refine (onCall_iff rfl rfl).mpr ⟨⟨by decide, by decide, by decide, fun r => ?_⟩, by decide⟩
    exact iff_of_false List.not_mem_nil fun h => hnone _ _ h.2
  · exact (onCall_iff rfl rfl).mpr ⟨⟨by decide, by decide, by decide, hone⟩, by decide⟩

theorem shows_run_befriended :
    Shows (Runs.run step (signedUp [("a", "ann"), ("b", "bob")]) befriended).store
      (Runs.run SocialGraph.step (socialGraph (signedUp [("a", "ann"), ("b", "bob")]).store)
        (Runs.labels step acts (signedUp [("a", "ann"), ("b", "bob")]) befriended)) :=
  shows_run (initial_signedUp (by decide)) actsOnCurrent_befriended

/-- The acts are the request and the accept, so the two are friends. -/
theorem lists_iff_joinedLast_befriended :
    Lists (Runs.run step (signedUp [("a", "ann"), ("b", "bob")]) befriended).store "a" "b" :=
  (lists_iff_joinedLast (initial_signedUp (by decide)) actsOnCurrent_befriended "a" "b").mpr
    ⟨[.request "a" "b"], .accept "a" "b", [], rfl, rfl, by simp⟩

end JamSession.Sequential
