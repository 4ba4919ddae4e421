import JamSession.Interleaved.System

/-! The writes of a call. Every write on its way was issued by the body of its call, from the
two objects that the body worked on: a user document is one of the two with the call's own
edit, the other user's name appended to or removed from a list. So what a write stores can be
told from how up to date the copies are that the call worked on. -/

namespace JamSession.Interleaved

open UserController JamSession.Sequential

variable [UIKit]

/-- The writes that the body of a call issues; for an accept, the completion of its delete. -/
def Call.writes (k : Call) : List Write :=
  if k.op = .accept then (acceptDeleted k.user k.currentUser false).writes
  else (perform k.currentUser k.user k.op).writes

/-- The friends list of a user after an operation about a user called `n`. -/
def editFriends (op : Operation) (friends : List String) (n : String) : List String :=
  match op with
  | .accept => friends ++ [n]
  | .unfriend | .block => friends.erase n
  | .send | .ignore => friends

/-- `u` is the copy `w` with the edit that the operation makes in it. -/
structure Edited (op : Operation) (w : User) (n : String) (u : User) : Prop where
  uuid : u.uuid = w.uuid
  username : u.username = w.username
  friends : u.friends = editFriends op w.friends n
  blocked : u.blocked = w.blocked ∨ op = .block ∧ u.blocked = w.blocked ++ [n]

/-- The two copies that a call works on, each with the other's name. -/
def Call.copies (k : Call) : List (User × String) :=
  [(k.currentUser, k.user.username), (k.user, k.currentUser.username)]

@[simp] theorem Call.mem_copies {k : Call} {p : User × String} : p ∈ k.copies ↔
    p = (k.currentUser, k.user.username) ∨ p = (k.user, k.currentUser.username) := by
  simp [Call.copies]

/-- The user document is one of the two copies of the call, edited. -/
def Call.Saves (k : Call) (uuid : String) (dict : Dict) : Prop :=
  ∃ u : User, ∃ p ∈ k.copies, dict = u.toFireObj ∧ u.uuid = uuid ∧ Edited k.op p.1 p.2 u

section Saves

variable {k : Call} {u : User} {uuid : String} {dict : Dict}

theorem mem_saveUser : .setUser uuid dict ∈ saveUser u ↔ uuid = u.uuid ∧ dict = u.toFireObj := by
  simp [saveUser, saveRequests]

/-- A copy saved with its edit. -/
theorem saves_of_mem (h : .setUser uuid dict ∈ saveUser u)
    (he : Edited k.op k.currentUser k.user.username u ∨
      Edited k.op k.user k.currentUser.username u) : k.Saves uuid dict := by
  obtain ⟨rfl, rfl⟩ := mem_saveUser.mp h
  obtain he | he := he
  · exact ⟨u, _, Call.mem_copies.mpr (Or.inl rfl), rfl, rfl, he⟩
  · exact ⟨u, _, Call.mem_copies.mpr (Or.inr rfl), rfl, rfl, he⟩

theorem saves_unfriendUser (hop : k.op = .unfriend ∨ k.op = .block)
    (h : .setUser uuid dict ∈ (unfriendUser k.currentUser k.user).writes) :
    k.Saves uuid dict := by
  have hedit : ∀ fs n, editFriends k.op fs n = fs.erase n := by
    intro fs n
    rcases hop with hop | hop <;> rw [hop] <;> rfl
  by_cases hf : k.user.username ∈ k.currentUser.friends
  · by_cases hf' : k.currentUser.username ∈ k.user.friends
    · rw [unfriendUser_mutual hf hf'] at h
      rcases List.mem_append.mp h with h | h
      · exact saves_of_mem h (Or.inr ⟨rfl, rfl, (hedit _ _).symm, Or.inl rfl⟩)
      · exact saves_of_mem h (Or.inl ⟨rfl, rfl, (hedit _ _).symm, Or.inl rfl⟩)
    · simp [unfriendUser_oneSided hf hf'] at h
  · simp [unfriendUser_stranger hf] at h

/-- The friends list of the session after the nested `unfriendUser`. -/
theorem unfriendUser_friends (m o : User) :
    (unfriendUser m o).currentUser.friends = m.friends.erase o.username := by
  by_cases hf : o.username ∈ m.friends
  · by_cases hf' : m.username ∈ o.friends
    · rw [unfriendUser_mutual hf hf']
      rfl
    · rw [unfriendUser_oneSided hf hf']
      rfl
  · rw [unfriendUser_stranger hf, List.erase_of_not_mem hf]

theorem unfriendUser_rest (m o : User) : (unfriendUser m o).currentUser.uuid = m.uuid ∧
    (unfriendUser m o).currentUser.username = m.username ∧
    (unfriendUser m o).currentUser.blocked = m.blocked := by
  unfold unfriendUser
  split_ifs <;> exact ⟨rfl, rfl, rfl⟩

/-- Every user document that a call writes is an edited copy. -/
theorem Call.saves (h : .setUser uuid dict ∈ k.writes) : k.Saves uuid dict := by
  unfold Call.writes at h
  split_ifs at h with hop
  · have hedit : ∀ fs n, editFriends k.op fs n = fs ++ [n] := by
      intro fs n
      rw [hop]
      rfl
    have ho : Edited k.op k.user k.currentUser.username
        (k.user.addFriend k.currentUser.username) := ⟨rfl, rfl, (hedit _ _).symm, Or.inl rfl⟩
    by_cases hf : k.user.username ∈ k.currentUser.friends
    · simp [acceptDeleted_friend hf] at h
    by_cases hr : ⟨k.user.uuid, k.currentUser.uuid⟩ ∈ k.currentUser.friendRequests
    · rw [acceptDeleted_pending hf hr] at h
      rcases List.mem_append.mp h with h | h
      · exact saves_of_mem h (Or.inr ho)
      · exact saves_of_mem h (Or.inl ⟨rfl, rfl, (hedit _ _).symm, Or.inl rfl⟩)
    · rw [acceptDeleted_missing hf hr] at h
      exact saves_of_mem h (Or.inr ho)
  · cases hk : k.op with
    | accept => exact absurd hk hop
    | send =>
      rw [hk] at h
      cases (mem_sendFriendRequest.mp h).2
    | ignore =>
      rw [hk] at h
      by_cases hr : ⟨k.user.uuid, k.currentUser.uuid⟩ ∈ k.currentUser.friendRequests
      · simp only [perform, ignoreFriendRequest_pending hr, List.mem_cons, reduceCtorEq,
          false_or] at h
        exact saves_of_mem h (Or.inl (hk ▸ ⟨rfl, rfl, rfl, Or.inl rfl⟩))
      · simp [perform, ignoreFriendRequest_missing hr] at h
    | unfriend =>
      rw [hk] at h
      exact saves_unfriendUser (Or.inl hk) h
    | block =>
      rw [hk] at h
      simp only [perform, blockUser_eq] at h
      rcases List.mem_append.mp h with h | h
      · exact saves_unfriendUser (Or.inr hk) h
      · obtain ⟨huuid, hname, hb⟩ := unfriendUser_rest k.currentUser k.user
        refine saves_of_mem h (Or.inl ⟨huuid, hname, ?_, Or.inr ⟨hk, ?_⟩⟩)
        · rw [hk]
          exact unfriendUser_friends k.currentUser k.user
        · rw [User.addBlocked, hb]

end Saves

/-! ### Writes on their way -/

section Steps

variable {s s' : State}

/-- A task on its way: a write comes from its call, and only an accept waits for a delete. -/
def Task.Issued : Task → Prop
  | .writing k w => w ∈ k.writes
  | .deleting k | .deleted k _ => k.op = .accept
  | _ => True

def AllIssued (s : State) : Prop := ∀ t ∈ s.tasks, t.Issued

theorem AllIssued.next {a : Action} (h : AllIssued s) (hn : Next s a s') : AllIssued s' := by
  intro t hin
  rcases mem_tasks_next hn hin with hold | hadd
  · exact h t hold
  cases hadd with
  | deleting i err k ht hm hop => exact hop
  | deleted i err k ht =>
    have hop : k.op = .accept := h _ (List.mem_of_getElem? ht)
    exact hop
  | issued i err k ht hm hop w hw =>
    show w ∈ k.writes
    rwa [Call.writes, if_neg hop]
  | completed i err err' k ht m hm w hw =>
    have hop : k.op = .accept := h _ (List.mem_of_getElem? ht)
    show w ∈ Call.writes { k with currentUser := m }
    cases err' with
    | false => rwa [Call.writes, if_pos hop]
    | true => simp [acceptDeleted_err] at hw
  | _ => trivial

end Steps

end JamSession.Interleaved
