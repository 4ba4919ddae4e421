import JamSession.Sequential.System

/-! Properties of the lists of each user document by itself, when they survive the removal of
a friend. Such a property holds after an operation exactly when it holds of the lists that
the operation appends to: the two friends lists of an accept and the blocked list of a block.
The sessions have to carry the property too, since their lists are what is saved. -/

namespace JamSession.Sequential

open UserController

variable [UIKit]

/-- `P` holds of the username, the friends list and the blocked list of every document. -/
def EachDocument (P : String → List String → List String → Prop) (s : Store) : Prop :=
  ∀ k n, s.username k = some n → P n (s.friends k) (s.blocked k)

/-- `P` holds of the lists of `u`. -/
def OfUser (P : String → List String → List String → Prop) (u : User) : Prop :=
  P u.username u.friends u.blocked

variable {P : String → List String → List String → Prop} {s : Store}

theorem EachDocument.fetched {o : User} (h : EachDocument P s)
    (ho : s.Fetched s.username o) : OfUser P o := by
  unfold OfUser
  rw [ho.friends, ho.blocked]
  exact h o.uuid o.username ho.username

theorem eachDocument_congr {s' : Store} (h : s'.users = s.users) :
    EachDocument P s' ↔ EachDocument P s := by
  unfold EachDocument Store.username Store.friends Store.blocked
  rw [h]

/-- Only the saved document can change. -/
theorem eachDocument_saved {u : User} (hu : u.Known s.username)
    (hs : ∀ k n, k ≠ u.uuid → s.username k = some n → P n (s.friends k) (s.blocked k)) :
    EachDocument P (s.applyAll (saveUser u)) ↔ OfUser P u := by
  constructor
  · intro h
    have := h u.uuid u.username (by simp)
    simpa [OfUser] using this
  · intro h k n hk
    rw [Store.username_applyAll (saveUser_names hu)] at hk
    rw [friends_applyAll_saveUser, blocked_applyAll_saveUser]
    by_cases hku : k = u.uuid
    · subst hku
      rw [hu, Option.some.injEq] at hk
      simpa [← hk, OfUser] using h
    · rw [if_neg hku, if_neg hku]
      exact hs k n hku hk

/-- Two saved documents; of two copies with one uuid the second is stored. -/
theorem eachDocument_saved₂ {u v : User} (hs : EachDocument P s) (hu : u.Known s.username)
    (hv : v.Known s.username) : EachDocument P (s.applyAll (saveUser u ++ saveUser v)) ↔
      (u.uuid ≠ v.uuid → OfUser P u) ∧ OfUser P v := by
  have hname := Store.username_applyAll (saveUser_names hu)
  have hv' : v.Known (s.applyAll (saveUser u)).username := by rwa [hname]
  have huv : u.uuid ≠ v.uuid → (∀ k n, k ≠ v.uuid → s.username k = some n →
      P n ((s.applyAll (saveUser u)).friends k) ((s.applyAll (saveUser u)).blocked k)) →
      OfUser P u := by
    intro hne h
    have := h u.uuid u.username hne hu
    simpa [OfUser] using this
  rw [Store.applyAll_append]
  constructor
  · intro h
    have hrest : ∀ k n, k ≠ v.uuid → s.username k = some n →
        P n ((s.applyAll (saveUser u)).friends k) ((s.applyAll (saveUser u)).blocked k) := by
      intro k n hk hn
      have := h k n (by rw [Store.username_applyAll (saveUser_names hv'), hname]; exact hn)
      simpa [hk, OfUser] using this
    refine ⟨fun hne => huv hne hrest, (eachDocument_saved hv' fun k n hk hn => ?_).mp h⟩
    exact hrest k n hk (hname ▸ hn)
  · rintro ⟨hou, hov⟩
    refine (eachDocument_saved hv' fun k n hk hn => ?_).mpr hov
    rw [hname] at hn
    rw [friends_applyAll_saveUser, blocked_applyAll_saveUser]
    by_cases hku : k = u.uuid
    · subst hku
      rw [hu, Option.some.injEq] at hn
      simpa [← hn, OfUser] using hou hk
    · rw [if_neg hku, if_neg hku]
      exact hs k n hn

/-! ### One operation -/

/-- `P` survives the removal of a friend. -/
def Shrinks (P : String → List String → List String → Prop) : Prop :=
  ∀ n friends blocked x, P n friends blocked → P n (friends.erase x) blocked

/-- The lists that the operation appends to have the property. -/
def Keeps (P : String → List String → List String → Prop) (_ : Store) (m o : User) :
    Operation → Prop
  | .accept => o.username ∉ m.friends →
      if ⟨o.uuid, m.uuid⟩ ∈ m.friendRequests then
        (o.uuid ≠ m.uuid → OfUser P (o.addFriend m.username)) ∧ OfUser P (m.addFriend o.username)
      else OfUser P (o.addFriend m.username)
  | .block => OfUser P ((unfriendUser m o).currentUser.addBlocked o.username)
  | .send | .ignore | .unfriend => True

section Operation

variable {m o : User} (hP : Shrinks P) (hm : m.Known s.username) (ho : s.Fetched s.username o)
  (hs : EachDocument P s) (hmem : OfUser P m)
include hP hm ho hs hmem

theorem unfriendUser_keeps : EachDocument P (s.applyAll (unfriendUser m o).writes) ∧
    OfUser P (unfriendUser m o).currentUser := by
  have hm' : OfUser P (m.removeFriend o.username) := hP _ _ _ _ hmem
  have ho' : OfUser P (o.removeFriend m.username) := hP _ _ _ _ (hs.fetched ho)
  by_cases hf : o.username ∈ m.friends
  · by_cases hf' : m.username ∈ o.friends
    · rw [unfriendUser_mutual hf hf']
      exact ⟨(eachDocument_saved₂ (u := o.removeFriend _) (v := m.removeFriend _) hs ho.known hm).mpr
        ⟨fun _ => ho', hm'⟩, hm'⟩
    · rw [unfriendUser_oneSided hf hf']
      exact ⟨hs, hm'⟩
  · rw [unfriendUser_stranger hf]
    exact ⟨hs, hmem⟩

theorem eachDocument_perform_iff (op : Operation) :
    EachDocument P (s.applyAll (perform m o op).writes) ↔ Keeps P s m o op := by
  cases op with
  | send =>
    have hsend := users_applyAll_sendFriendRequest s m o
    exact iff_of_true ((eachDocument_congr hsend).mpr hs) trivial
  | accept =>
    have hdelete := users_applyAll_congr
      (s.apply_deleteRequest_users m.uuid (requestTitle o.uuid m.uuid))
      (acceptDeleted o m false).writes
    refine (eachDocument_congr hdelete).trans ?_
    by_cases hf : o.username ∈ m.friends
    · rw [acceptDeleted_friend hf]
      exact iff_of_true hs (fun h => absurd hf h)
    by_cases hr : ⟨o.uuid, m.uuid⟩ ∈ m.friendRequests
    · rw [acceptDeleted_pending hf hr]
      simp only [Keeps, hf, hr, not_false_eq_true, true_implies, if_true]
      exact eachDocument_saved₂ (u := o.addFriend m.username)
        (v := (m.addFriend o.username).removeRequest ⟨o.uuid, m.uuid⟩) hs ho.known hm
    · rw [acceptDeleted_missing hf hr]
      simp only [Keeps, hf, hr, not_false_eq_true, true_implies, if_false]
      exact eachDocument_saved (u := o.addFriend m.username) ho.known fun k n _ hn => hs k n hn
  | ignore =>
    refine iff_of_true ?_ trivial
    by_cases hr : ⟨o.uuid, m.uuid⟩ ∈ m.friendRequests
    · simp only [perform, ignoreFriendRequest_pending hr, Store.applyAll_cons]
      rw [saveData_eq_saveUser,
        eachDocument_congr (users_applyAll_congr (s.apply_deleteRequest_users _ _) _),
        eachDocument_saved (u := m.removeRequest _) hm fun k n _ hn => hs k n hn]
      exact hmem
    · simp only [perform, ignoreFriendRequest_missing hr]
      exact hs
  | unfriend => exact iff_of_true (unfriendUser_keeps hP hm ho hs hmem).1 trivial
  | block =>
    have hkept := unfriendUser_names hm ho.known
    have hs' := (unfriendUser_keeps hP hm ho hs hmem).1
    simp only [perform, Keeps]
    rw [blockUser_eq, Store.applyAll_append, saveData_eq_saveUser]
    refine eachDocument_saved ?_ fun k n _ hn => hs' k n hn
    rw [Store.username_applyAll hkept.2]
    exact hkept.1

/-- The session after an operation; an accept has appended to its list, saved or not. -/
theorem perform_session {op : Operation} (h : Keeps P s m o op)
    (ha : op = .accept → o.username ∉ m.friends → OfUser P (m.addFriend o.username)) :
    OfUser P (perform m o op).currentUser := by
  cases op with
  | send => exact hmem
  | accept =>
    by_cases hf : o.username ∈ m.friends
    · simp only [perform, acceptDeleted_friend hf]
      exact hmem
    by_cases hr : ⟨o.uuid, m.uuid⟩ ∈ m.friendRequests
    · simp only [perform, acceptDeleted_pending hf hr]
      exact ha rfl hf
    · simp only [perform, acceptDeleted_missing hf hr]
      exact ha rfl hf
  | ignore =>
    by_cases hr : ⟨o.uuid, m.uuid⟩ ∈ m.friendRequests
    · simp only [perform, ignoreFriendRequest_pending hr]
      exact hmem
    · simp only [perform, ignoreFriendRequest_missing hr]
      exact hmem
  | unfriend => exact (unfriendUser_keeps hP hm ho hs hmem).2
  | block =>
    simp only [perform, blockUser_eq]
    exact h

end Operation

/-! ### Steps -/

/-- The lists have the property in every document and in every session. -/
structure AllLists (P : String → List String → List String → Prop) (s : State) : Prop where
  wellKept : WellKept s
  documents : EachDocument P s.store
  sessions : ∀ c m, s.session c = some m → OfUser P m

theorem Initial.allLists {s : State} (hs : Initial s)
    (hP : ∀ k n, s.store.username k = some n → P n [] (s.store.blocked k)) : AllLists P s where
  wellKept := hs.wellKept
  documents k n hn := by
    rw [hs.friends]
    exact hP k n hn
  sessions c m hm := by
    rw [hs.sessions c] at hm
    cases hm

theorem AllLists.documents_step_iff {s : State} (hP : Shrinks P) (hs : AllLists P s) (a : Action) :
    EachDocument P (step s a).store ↔ OnCall (Keeps P) s a := by
  have hk := hs.wellKept
  obtain ⟨c, op, q, m, o, rfl, hm, ho, hstep⟩ | ⟨hno, hidle⟩ := step_cases s a
  · rw [hstep, onCall_iff hm ho]
    exact eachDocument_perform_iff hP (hk.sessions c m hm) (hk.coherent.fetched ho) hs.documents
      (hs.sessions c m hm) op
  · rw [hidle.store]
    exact iff_of_true hs.documents (hno _)

theorem AllLists.preserved {s : State} (hP : Shrinks P) (hs : AllLists P s) {a : Action}
    (h : OnCall (Keeps P) s a) (ha : OnCall (fun _ m o op => op = .accept →
      o.username ∉ m.friends → OfUser P (m.addFriend o.username)) s a) :
    AllLists P (step s a) := by
  have hk := hs.wellKept
  refine ⟨hk.step a, (hs.documents_step_iff hP a).mpr h, fun c' m' hm' => ?_⟩
  obtain ⟨c, op, q, m, o, rfl, hm, ho, hstep⟩ | ⟨-, hidle⟩ := step_cases s a
  · rw [hstep] at hm'
    simp only [Function.update_apply] at hm'
    split_ifs at hm'
    · exact Option.some.inj hm' ▸ perform_session hP (hk.sessions c m hm) (hk.coherent.fetched ho)
        hs.documents (hs.sessions c m hm) ((onCall_iff hm ho).mp h) ((onCall_iff hm ho).mp ha)
    · exact hs.sessions c' m' hm'
  · obtain hm | ⟨q, hq⟩ | ⟨m, rs, hm, rfl⟩ := hidle.session c' m' hm'
    · exact hs.sessions c' m' hm
    · exact hs.documents.fetched (hk.coherent.fetched hq)
    · exact hs.sessions c' m hm

end JamSession.Sequential
