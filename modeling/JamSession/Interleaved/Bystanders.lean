import JamSession.Interleaved.Identity
import JamSession.Firestore.PlainKit

/-! What a call touches. Each operation rewrites whole documents of two users and documents of
their request collections, some of them in callbacks of its callbacks. None of these writes is
of a third user: while nobody makes a call about a user, neither that user's document nor the
requests sent to that user change, nor the lists of the clients logged in as that user. -/

namespace JamSession.Interleaved

open UserController JamSession.Sequential

section

variable [UIKit]

/-- The user whose document or requests the write changes. -/
def Write.owner : Write → String
  | .setUser uuid _ => uuid
  | .setRequest receiver _ _ => receiver
  | .deleteRequest receiver _ => receiver

/-- The call that the step makes. -/
def callMade (s : State) : Action → Option Call
  | .advance i _ => match s.tasks[i]? with
    | some (.answered flow c (.call op) (.ok o)) =>
      (s.session c).map fun m => ⟨flow, c, op, m, o⟩
    | _ => none
  | _ => none

/-- The step makes no call about `u`. -/
def Passes (u : String) (s : State) (a : Action) : Prop :=
  ∀ k ∈ callMade s a, k.currentUser.uuid ≠ u ∧ k.user.uuid ≠ u

instance (u : String) (s : State) (a : Action) : Decidable (Passes u s a) :=
  inferInstanceAs (Decidable (∀ k ∈ callMade s a, k.currentUser.uuid ≠ u ∧ k.user.uuid ≠ u))

/-- The task has nothing to do with `u`. -/
def TaskPasses (u : String) : Task → Prop
  | .writing _ w => Write.owner w ≠ u
  | .deleting k | .deleted k _ => k.user.uuid ≠ u ∧ k.currentUser.uuid ≠ u
  | .enrolling _ v => v.uuid ≠ u
  | _ => True

/-- The accept that the task is of, after its call. -/
def Task.accepts : Task → Option Call
  | .deleting k | .deleted k _ => some k
  | _ => none

/-- What is stored of `u`, and the lists of the clients of `u`, are the same. -/
structure SameUser (u : String) (s s' : State) : Prop where
  document : s'.store.users.get? u = s.store.users.get? u
  requests : s'.store.friendRequests u = s.store.friendRequests u
  session : ∀ c m, s.session c = some m → m.uuid = u → ∃ m', s'.session c = some m' ∧
    m'.uuid = u ∧ m'.friends = m.friends ∧ m'.blocked = m.blocked

/-! ### The owners of the writes -/

section Operations

variable {m o v : User} {w : Write} {u : String}

theorem owner_saveUser (hw : w ∈ saveUser v) : Write.owner w = v.uuid := by
  rcases List.mem_cons.mp hw with rfl | hw
  · rfl
  · obtain ⟨r, -, rfl⟩ := List.mem_map.mp hw
    rfl

theorem owner_unfriendUser (hw : w ∈ (unfriendUser m o).writes) :
    Write.owner w = m.uuid ∨ Write.owner w = o.uuid := by
  unfold unfriendUser at hw
  split_ifs at hw
  · rcases List.mem_append.mp hw with hw | hw
    · exact Or.inr ((owner_saveUser hw).trans rfl)
    · exact Or.inl ((owner_saveUser hw).trans rfl)
  · cases hw
  · cases hw

theorem owner_acceptDeleted {err : Bool} (hw : w ∈ (acceptDeleted o m err).writes) :
    Write.owner w = m.uuid ∨ Write.owner w = o.uuid := by
  simp only [acceptDeleted] at hw
  split_ifs at hw
  · cases hw
  · cases hw
  · rcases List.mem_append.mp hw with hw | hw
    · exact Or.inr ((owner_saveUser hw).trans rfl)
    · exact Or.inl ((owner_saveUser hw).trans rfl)
  · exact Or.inr ((owner_saveUser hw).trans rfl)

/-- An operation writes about the two users that it works on. -/
theorem owner_perform {op : Operation} (hw : w ∈ (perform m o op).writes) :
    Write.owner w = m.uuid ∨ Write.owner w = o.uuid := by
  cases op with
  | send =>
    obtain ⟨-, rfl⟩ := mem_sendFriendRequest.mp hw
    exact Or.inr rfl
  | accept =>
    rcases List.mem_cons.mp hw with rfl | hw
    · exact Or.inl rfl
    · exact owner_acceptDeleted hw
  | ignore =>
    simp only [perform, ignoreFriendRequest] at hw
    split_ifs at hw
    · rcases List.mem_cons.mp hw with rfl | hw
      · exact Or.inl rfl
      · exact Or.inl ((owner_saveUser hw).trans rfl)
    · cases hw
  | unfriend => exact owner_unfriendUser hw
  | block =>
    simp only [perform, blockUser_eq] at hw
    rcases List.mem_append.mp hw with hw | hw
    · exact owner_unfriendUser hw
    · exact Or.inl ((owner_saveUser hw).trans (unfriendUser_rest m o).1)

theorem apply_owner {st : Store} (h : Write.owner w ≠ u) :
    (st.apply w).users.get? u = st.users.get? u ∧
      (st.apply w).friendRequests u = st.friendRequests u := by
  cases w with
  | setUser uuid dict =>
    have hne : u ≠ uuid := Ne.symm h
    exact ⟨by rw [st.apply_setUser_get?, if_neg hne], rfl⟩
  | setRequest receiver title dict => exact ⟨rfl, Function.update_of_ne (Ne.symm h) _ _⟩
  | deleteRequest receiver title => exact ⟨rfl, Function.update_of_ne (Ne.symm h) _ _⟩

end Operations

/-! ### Steps -/

section Steps

variable {u : String} {s s' s'' : State} {a : Action}

theorem callMade_answered {i : ℕ} {err : Bool} {k : Call}
    (ht : s.tasks[i]? = some (.answered k.flow k.client (.call k.op) (.ok k.user)))
    (hm : s.session k.client = some k.currentUser) : callMade s (.advance i err) = some k := by
  simp only [callMade, ht, hm, Option.map_some]

/-- The client of an accept that waits for its delete is logged in as the user who accepted. -/
def AcceptsLoggedIn (s : State) : Prop :=
  ∀ t ∈ s.tasks, ∀ k ∈ t.accepts, LoggedIn s k.client k.currentUser.uuid

theorem AcceptsLoggedIn.next (h : AcceptsLoggedIn s) (hn : Next s a s') : AcceptsLoggedIn s' := by
  intro t hin k hk
  refine loggedIn_next hn ?_
  rcases mem_tasks_next hn hin with hold | hadd
  · exact h t hold k hk
  cases hadd with
  | deleting i err k ht hm hop =>
    cases hk
    exact ⟨_, hm, rfl⟩
  | deleted i err k ht =>
    cases hk
    exact h _ (List.mem_of_getElem? ht) k rfl
  | _ => cases hk

/-- The session of the accept that goes on is of the user who accepted. -/
theorem AcceptsLoggedIn.uuid_eq (h : AcceptsLoggedIn s) {i : ℕ} {k : Call} {err : Bool} {m : User}
    (ht : s.tasks[i]? = some (.deleted k err)) (hm : s.session k.client = some m) :
    m.uuid = k.currentUser.uuid := by
  obtain ⟨m', hm', huuid⟩ := h _ (List.mem_of_getElem? ht) k rfl
  obtain rfl : m' = m := Option.some.inj (hm'.symm.trans hm)
  exact huuid

theorem taskPasses_next (h : ∀ t ∈ s.tasks, TaskPasses u t) (hl : AcceptsLoggedIn s)
    (hi' : Identified s') (hu : s'.store.users.get? u ≠ none) (ha : Passes u s a)
    (hn : Next s a s') : ∀ t ∈ s'.tasks, TaskPasses u t := by
  intro t hin
  rcases mem_tasks_next hn hin with hold | hadd
  · exact h t hold
  cases hadd with
  | deleting i err k ht hm hop =>
    obtain ⟨hcurrent, huser⟩ := ha k (callMade_answered ht hm)
    exact ⟨huser, hcurrent⟩
  | deleted i err k ht =>
    have hk : TaskPasses u (.deleting k) := h _ (List.mem_of_getElem? ht)
    exact hk
  | issued i err k ht hm hop w hw =>
    obtain ⟨hcurrent, huser⟩ := ha k (callMade_answered ht hm)
    show Write.owner w ≠ u
    rcases owner_perform hw with he | he <;> rw [he]
    · exact hcurrent
    · exact huser
  | completed i err err' k ht m hm w hw =>
    obtain ⟨huser, hcurrent⟩ : TaskPasses u (.deleted k err') := h _ (List.mem_of_getElem? ht)
    show Write.owner w ≠ u
    rcases owner_acceptDeleted hw with he | he <;> rw [he]
    · rwa [hl.uuid_eq ht hm]
    · exact huser
  | enrolling flow v =>
    -- a sign-up enrols a uid that has no document
    rintro rfl
    exact hu (hi'.fresh v.uuid (List.mem_filterMap.mpr ⟨_, hin, rfl⟩))
  | _ => trivial

theorem SameUser.refl (u : String) (s : State) : SameUser u s s :=
  ⟨rfl, rfl, fun _ m hm hu => ⟨m, hm, hu, rfl, rfl⟩⟩

theorem SameUser.trans (h : SameUser u s s') (h' : SameUser u s' s'') : SameUser u s s'' where
  document := h'.document.trans h.document
  requests := h'.requests.trans h.requests
  session c m hm hu := by
    obtain ⟨m', hm', hu', hf, hb⟩ := h.session c m hm hu
    obtain ⟨m'', hm'', hu'', hf', hb'⟩ := h'.session c m' hm' hu'
    exact ⟨m'', hm'', hu'', hf'.trans hf, hb'.trans hb⟩

/-- The lists of a session change only by a call about its user. -/
theorem sessions_next (h : ∀ t ∈ s.tasks, TaskPasses u t) (hl : AcceptsLoggedIn s)
    (ha : Passes u s a) (hn : Next s a s') {c : ℕ} {m : User} (hm : s.session c = some m)
    (hu : m.uuid = u) : ∃ m', s'.session c = some m' ∧ m'.uuid = u ∧ m'.friends = m.friends ∧
      m'.blocked = m.blocked := by
  obtain heq | ⟨m', hm', hassigned⟩ := session_next hn c
  · exact ⟨m, heq.trans hm, hu, rfl, rfl⟩
  cases hassigned with
  | loggedIn i err flow c v ht hc =>
    rw [hm] at hc
    cases hc
  | called i err k ht hk hop =>
    obtain rfl : k.currentUser = m := Option.some.inj (hk.symm.trans hm)
    exact absurd hu (ha k (callMade_answered ht hk)).1
  | loaded i err flow c answer ht m₀ hm₀ =>
    obtain rfl : m₀ = m := Option.some.inj (hm₀.symm.trans hm)
    refine ⟨_, hm', ?_⟩
    cases answer <;> exact ⟨hu, rfl, rfl⟩
  | completed i err err' k ht m₀ hm₀ =>
    obtain ⟨-, hcurrent⟩ : TaskPasses u (.deleted k err') := h _ (List.mem_of_getElem? ht)
    obtain rfl : m₀ = m := Option.some.inj (hm₀.symm.trans hm)
    exact absurd ((hl.uuid_eq ht hm).symm.trans hu) hcurrent

theorem sameUser_next (h : ∀ t ∈ s.tasks, TaskPasses u t) (hl : AcceptsLoggedIn s)
    (ha : Passes u s a) (hn : Next s a s') : SameUser u s s' := by
  have hsession := fun c m hm hu => sessions_next (c := c) (m := m) h hl ha hn hm hu
  have hwrite : ∀ {w : Write}, Write.owner w ≠ u → s'.store = s.store.apply w →
      SameUser u s s' := by
    intro w hw hstore
    have happly : (s.store.apply w).users.get? u = s.store.users.get? u ∧
        (s.store.apply w).friendRequests u = s.store.friendRequests u := apply_owner hw
    obtain ⟨hdocument, hrequests⟩ := happly
    exact ⟨by rw [hstore, hdocument], by rw [hstore, hrequests], hsession⟩
  cases hn with
  | stored i k w ht => exact hwrite (h _ (List.mem_of_getElem? ht)) rfl
  | deleteStored i k ht =>
    obtain ⟨-, hcurrent⟩ : TaskPasses u (.deleting k) := h _ (List.mem_of_getElem? ht)
    exact hwrite (w := acceptFriendRequest k.user k.currentUser) hcurrent rfl
  | enrolled i flow v ht =>
    have hv : v.uuid ≠ u := h _ (List.mem_of_getElem? ht)
    exact hwrite (w := .setUser v.uuid v.toFireObj) hv rfl
  | called i err k ht hm =>
    refine ⟨?_, ?_, hsession⟩ <;> unfold State.call <;> split_ifs <;> rfl
  | _ => exact ⟨rfl, rfl, hsession⟩

end Steps

/-- While nobody makes a call about a stored user, and no such call is under way, nothing that
is stored of this user changes, nor the friends and the blocked list of a client logged in as
this user. -/
theorem sameUser_run {s : State} (hs : Start s) (as : List Action) {u : String}
    (hu : (Runs.run step s as).store.users.get? u ≠ none)
    (ht : ∀ t ∈ (Runs.run step s as).tasks, TaskPasses u t)
    {bs : List Action} (hbs : Runs.Each step (Passes u) (Runs.run step s as) bs) :
    Runs.Always step (SameUser u (Runs.run step s as)) (Runs.run step s as) bs := by
  have hi : AcceptsLoggedIn (Runs.run step s as) ∧ Identified (Runs.run step s as) ∧
      AllIssued (Runs.run step s as) :=
    Runs.invariant (I := fun s => AcceptsLoggedIn s ∧ Identified s ∧ AllIssued s)
      (fun s a h => ⟨h.1.next (next_step s a), h.2.1.next h.2.2 (next_step s a),
        h.2.2.next (next_step s a)⟩)
      ⟨by simp [AcceptsLoggedIn, hs.tasks], hs.identified, hs.allIssued⟩ as
  generalize Runs.run step s as = s₀ at hu ht hbs hi
  refine (Runs.always_of_each (C := Passes u) (I := fun s => SameUser u s₀ s ∧
    (∀ t ∈ s.tasks, TaskPasses u t) ∧ AcceptsLoggedIn s ∧ Identified s ∧ AllIssued s)
    (fun s a h ha => ?_) ⟨.refl u s₀, ht, hi⟩ hbs).mono fun s h => h.1
  obtain ⟨hsame, ht, hl, hi, hissued⟩ := h
  have hn := next_step s a
  have hsame' := hsame.trans (sameUser_next ht hl ha hn)
  have hi' := hi.next hissued hn
  refine ⟨hsame', taskPasses_next ht hl hi' ?_ ha hn, hl.next hn, hi', hissued.next hn⟩
  rw [hsame'.document]
  exact hu

end

open PlainKit

/-- Ann, Bob and Cat log in. -/
def allLoggedIn : List Action := [.logIn 0 "a", .logIn 1 "b", .logIn 2 "c"] ++ advances 0 6

/-- Bob accepts the request of Ann, and the two part again. -/
def metAndParted : List Action := List.flatten [
  [.addUserButtonPressed 0 "bob"], advances 0 5, [.load 1], advances 0 2, [.addFwen 1 0],
  advances 0 7, [.block 1 "ann"], advances 0 5]

theorem sameUser_run_metAndParted :
    (Runs.run step (Runs.run step abc allLoggedIn) metAndParted).store.blocked "b" = ["ann"] ∧
      Runs.Always step (SameUser "c" (Runs.run step abc allLoggedIn))
        (Runs.run step abc allLoggedIn) metAndParted := by
  have htasks : (Runs.run step abc allLoggedIn).tasks = [] := rfl
  refine ⟨by decide +kernel, sameUser_run (s := abc) (initial_signedUp _).start allLoggedIn
    (by decide +kernel) (fun t ht => ?_) (by decide +kernel)⟩
  rw [htasks] at ht
  cases ht

end JamSession.Interleaved
