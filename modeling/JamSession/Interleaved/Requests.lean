import JamSession.Interleaved.System

/-! The requests in a client's memory. They grow by loads and shrink, one entry at a time, when
an ignore is called and when the delete of an accept is acknowledged; every other step leaves
them alone. -/

namespace JamSession.Interleaved

open UserController JamSession.Sequential

variable [UIKit]

/-- The pending requests of the client's user; a client that is not logged in has none. -/
def requests (s : State) (c : ℕ) : List FriendRequest :=
  ((s.session c).map User.friendRequests).getD []

/-- The request of which a step removes an entry from the memory of the client. -/
def removed (c : ℕ) (s : State) : Action → Option FriendRequest
  | .advance i _ => match s.tasks[i]?, s.session c with
    | some (.answered _ c' (.call .ignore) (.ok o)), some m =>
      if c' = c then some ⟨o.uuid, m.uuid⟩ else none
    | some (.deleted k false), some m =>
      if k.client = c ∧ k.user.username ∉ m.friends then some ⟨k.user.uuid, m.uuid⟩ else none
    | _, _ => none
  | _ => none

/-! ### The operations -/

theorem ignoreFriendRequest_requests (o m : User) :
    (ignoreFriendRequest o m).currentUser.friendRequests = m.friendRequests.erase ⟨o.uuid, m.uuid⟩ := by
  by_cases hr : ⟨o.uuid, m.uuid⟩ ∈ m.friendRequests
  · rw [ignoreFriendRequest_pending hr]
    rfl
  · rw [ignoreFriendRequest_missing hr, List.erase_of_not_mem hr]

theorem unfriendUser_requests (m o : User) :
    (unfriendUser m o).currentUser.friendRequests = m.friendRequests := by
  unfold unfriendUser
  split_ifs <;> rfl

theorem perform_requests (m o : User) {op : Operation} (hi : op ≠ .ignore) (ha : op ≠ .accept) :
    (perform m o op).currentUser.friendRequests = m.friendRequests := by
  cases op with
  | send => rfl
  | accept => exact absurd rfl ha
  | ignore => exact absurd rfl hi
  | unfriend => exact unfriendUser_requests m o
  | block =>
    simp only [perform, blockUser_eq]
    exact unfriendUser_requests m o

theorem acceptDeleted_requests (o m : User) (err : Bool) :
    (acceptDeleted o m err).currentUser.friendRequests =
      if err = false ∧ o.username ∉ m.friends then m.friendRequests.erase ⟨o.uuid, m.uuid⟩
      else m.friendRequests := by
  cases err with
  | true => simp [acceptDeleted_err]
  | false =>
    by_cases hf : o.username ∈ m.friends
    · simp [acceptDeleted_friend hf, hf]
    · rw [if_pos ⟨rfl, hf⟩]
      by_cases hr : ⟨o.uuid, m.uuid⟩ ∈ m.friendRequests
      · rw [acceptDeleted_pending hf hr]
        rfl
      · rw [acceptDeleted_missing hf hr, List.erase_of_not_mem hr]
        rfl

theorem acceptDeleted_requests_subset (o m : User) (err : Bool) :
    (acceptDeleted o m err).currentUser.friendRequests ⊆ m.friendRequests := by
  rw [acceptDeleted_requests]
  split_ifs
  · exact List.erase_subset
  · exact List.Subset.refl _

/-- No operation adds a request to the memory of the current user. -/
theorem perform_requests_subset (m o : User) (op : Operation) :
    (perform m o op).currentUser.friendRequests ⊆ m.friendRequests := by
  cases op with
  | accept => exact acceptDeleted_requests_subset o m false
  | ignore =>
    rw [perform, ignoreFriendRequest_requests]
    exact List.erase_subset
  | send | unfriend | block =>
    rw [perform_requests m o (by simp) (by simp)]
    exact List.Subset.refl _

/-! ### Steps -/

theorem requests_eq {s : State} {c : ℕ} {m : User} (hm : s.session c = some m) :
    requests s c = m.friendRequests := by
  simp [requests, hm]

theorem requests_assign (s : State) (c c' : ℕ) (u : User) :
    requests (s.assign c' u) c = if c = c' then u.friendRequests else requests s c := by
  by_cases hc : c = c'
  · simp [requests, State.assign, hc]
  · simp [requests, State.assign, hc]

theorem requests_issue (s : State) (c : ℕ) (k : Call) (out : Outcome) :
    requests (s.issue k out) c = if c = k.client then out.currentUser.friendRequests
      else requests s c :=
  requests_assign s c k.client out.currentUser

theorem requests_removed {c : ℕ} {s : State} {a : Action} {r : FriendRequest}
    (h : removed c s a = some r) : requests (step s a) c = (requests s c).erase r := by
  unfold removed at h
  split at h
  · rename_i i err
    split at h
    · rename_i flow c' o m ht hm
      split_ifs at h with hc
      subst hc
      obtain rfl := Option.some.inj h
      have hcall : step s (.advance i err) = (s.drop i).call ⟨flow, c', .ignore, m, o⟩ :=
        step_calls ht hm
      rw [hcall, State.call, if_neg (by simp), requests_issue, if_pos rfl, requests_eq hm]
      exact ignoreFriendRequest_requests o m
    · rename_i k m ht hm
      split_ifs at h with hk
      obtain ⟨rfl, hf⟩ := hk
      obtain rfl := Option.some.inj h
      have hstep : step s (.advance i err) =
          (s.drop i).issue { k with currentUser := m } (acceptDeleted k.user m false) := by
        simp only [step, ht, proceed, State.drop, hm]
      rw [hstep, requests_issue, if_pos rfl, acceptDeleted_requests, if_pos ⟨rfl, hf⟩,
        requests_eq hm]
    · cases h
  · cases h

/-- A step that removes no request may add some. -/
theorem requests_grow {c : ℕ} {s : State} {a : Action} (h : removed c s a = none) :
    ∃ rs, requests (step s a) c = requests s c ++ rs := by
  obtain heq | ⟨m', hm', hassigned⟩ := session_next (next_step s a) c
  · exact ⟨[], by rw [requests, heq, List.append_nil, requests]⟩
  rw [requests_eq hm']
  cases hassigned with
  | loggedIn i err flow c u ht hc => exact ⟨m'.friendRequests, by simp [requests, hc]⟩
  | called i err k ht hm hop =>
    rw [requests_eq hm]
    by_cases hi : k.op = .ignore
    · simp [removed, ht, hm, hi] at h
    · exact ⟨[], by rw [perform_requests _ _ hi hop, List.append_nil]⟩
  | loaded i err flow c answer ht m hm =>
    rw [requests_eq hm]
    cases answer with
    | none => exact ⟨[], (List.append_nil _).symm⟩
    | some ds => exact ⟨ds.filterMap FriendRequest.fromStringAny, rfl⟩
  | completed i err err' k ht m hm =>
    rw [requests_eq hm, acceptDeleted_requests]
    by_cases hf : err' = false ∧ k.user.username ∉ m.friends
    · obtain ⟨rfl, hf⟩ := hf
      simp [removed, ht, hm, hf] at h
    · exact ⟨[], by rw [if_neg hf, List.append_nil]⟩

/-- What a step does to the requests in the memory of a client. -/
theorem requests_step (c : ℕ) (s : State) (a : Action) : (∃ r, removed c s a = some r ∧
    requests (step s a) c = (requests s c).erase r) ∨
    removed c s a = none ∧ ∃ rs, requests (step s a) c = requests s c ++ rs := by
  cases hr : removed c s a with
  | some r => exact Or.inl ⟨r, rfl, requests_removed hr⟩
  | none => exact Or.inr ⟨rfl, requests_grow hr⟩

end JamSession.Interleaved
