import JamSession.Interleaved.Restoring

/-! A handled request stays handled. An ignore takes the request out of the memory at once and
deletes the document later; an accept deletes the document first and takes the request out of
the memory when the delete is acknowledged. In between, the request can come back: by a load
that is answered while the document is there, by a save of the client while the request is in
memory, by another send. Once the document is absent, the memory free of the request and
nothing on its way that brings it, only a send can bring it back. -/

namespace JamSession.Interleaved

open UserController JamSession.Sequential

section

variable [UIKit]

/-- An ignore or an accept of a request to `r`. -/
def Call.Handles (r : String) (k : Call) : Prop :=
  (k.op = .ignore ∨ k.op = .accept) ∧ k.currentUser.uuid = r

/-- The call that a write, a delete or an acknowledgement belongs to. -/
def Task.call : Task → Option Call
  | .writing k _ | .deleting k | .deleted k _ => some k
  | _ => none

/-- The task belongs to the call; the session's object may have changed since. -/
def Task.Continues (k : Call) (t : Task) : Prop :=
  ∃ m : User, m.uuid = k.currentUser.uuid ∧ t.call = some { k with currentUser := m }

/-- The call was made, and no callback or write of it is outstanding. -/
def Finished (s : State) (k : Call) : Prop :=
  .called k ∈ s.log ∧ ∀ t ∈ s.tasks, ¬ t.Continues k

def Finishes (k : Call) (s : State) (a : Action) : Prop :=
  ¬ Finished s k ∧ Finished (step s a) k

/-- No document of a request of `x` to `r` is stored, and `r` has no request of `x` in memory. -/
structure Gone (r : String) (s : State) (x : String) : Prop where
  absent : Absent r s x
  memory : ∀ c m, s.session c = some m → m.uuid = r → ∀ q ∈ m.friendRequests, q.initialUser ≠ x

/-- When a call that handles a request to `r` has finished, the request is gone and stays so
until its sender calls `sendFriendRequest` for `r` again. -/
def StaysHandled (r : String) (s : State) (as : List Action) : Prop :=
  ∀ k : Call, k.Handles r → Runs.After step (Finishes k) (fun t => Gone r t k.user.uuid)
    (Sends k.user.uuid r) s as

/-- The request is gone from the store and from the client `c`, and nothing brings it back. -/
structure Cleared (c : ℕ) (r : String) (s : State) (x : String) : Prop where
  absent : Absent r s x
  memory : ⟨x, r⟩ ∉ requests s c
  settled : Settled r s x

/-! ### The condition on a step -/

instance (r : String) (k : Call) : Decidable (k.Handles r) :=
  inferInstanceAs (Decidable ((k.op = .ignore ∨ k.op = .accept) ∧ k.currentUser.uuid = r))

instance (c : ℕ) (r : String) (s : State) (x : String) : Decidable (Cleared c r s x) :=
  decidable_of_iff (Absent r s x ∧ ⟨x, r⟩ ∉ requests s c ∧ Settled r s x)
    ⟨fun h => ⟨h.1, h.2.1, h.2.2⟩, fun h => ⟨h.absent, h.memory, h.settled⟩⟩

/-- The senders of the requests to `r` that calls under way handle. -/
def handled (r : String) (s : State) : List String :=
  s.tasks.filterMap fun t => t.call.bind fun k =>
    if k.Handles r then some k.user.uuid else none

/-- The sender of the request that the delete or acknowledgement is for. -/
def Task.awaited (r : String) : Task → Option String
  | .writing k (.deleteRequest _ _) | .deleting k | .deleted k false =>
    if k.Handles r then some k.user.uuid else none
  | _ => none

def awaited (r : String) (s : State) : List String := s.tasks.filterMap (Task.awaited r)

/-- What the steps of the handling itself meet: only `c` is logged in as `r`; an ignore finds
one copy of the request in memory and none on its way, an accept none on its way; deletes do not
fail; and an acknowledged accept is not of a friend. -/
def HandlesWell (c : ℕ) (r : String) (s : State) : Action → Prop
  | .advance i err => match s.tasks[i]? with
    | some (.answered _ c' .logIn (.ok u)) => u.uuid = r → c' = c
    | some (.answered _ c' (.call .ignore) (.ok o)) => ∀ m ∈ s.session c', m.uuid = r →
        Cleared c r s o.uuid ∨ ⟨o.uuid, r⟩ ∈ m.friendRequests ∧
          ⟨o.uuid, r⟩ ∉ kept m o .ignore ∧ Settled r s o.uuid
    | some (.answered _ c' (.call .accept) (.ok o)) => ∀ m ∈ s.session c', m.uuid = r →
        Settled r s o.uuid
    | some (.writing k (.deleteRequest _ _)) => err = true → k.Handles r →
        Cleared c r s k.user.uuid
    | some (.deleting k) => err = true → k.Handles r → Cleared c r s k.user.uuid
    | some (.deleted k false) => ∀ m ∈ s.session k.client, m.uuid = r →
        ⟨k.user.uuid, r⟩ ∈ m.friendRequests → k.user.username ∉ m.friends
    | _ => True
  | _ => True

/-- The condition on a step. While a delete or its acknowledgement is outstanding, no step loads
the request or saves it from memory, and until the call has finished its sender does not send
again. -/
structure Undisturbed (c : ℕ) (r : String) (s : State) (a : Action) : Prop where
  handles : HandlesWell c r s a
  spares : ∀ x ∈ awaited r s, Spares r x s a
  sends : ∀ x ∈ handled r s, ¬ Sends x r s a

instance (c : ℕ) (r : String) (s : State) (a : Action) : Decidable (HandlesWell c r s a) := by
  induction a using Action.casesOn with
  | advance i err =>
    dsimp only [HandlesWell]
    generalize s.tasks[i]? = o
    induction o using Option.casesOn with
    | none => exact instDecidableTrue
    | some t =>
      induction t using Task.casesOn with
      | answered flow c' p result =>
        induction p using Purpose.casesOn with
        | call op =>
          induction op using Sequential.Operation.casesOn <;>
            induction result using Except.casesOn <;> infer_instance
        | _ => induction result using Except.casesOn <;> infer_instance
      | writing k w => induction w using Write.casesOn <;> infer_instance
      | deleted k failed => induction failed using Bool.casesOn <;> infer_instance
      | _ => infer_instance
  | _ => exact instDecidableTrue

instance (c : ℕ) (r : String) (s : State) (a : Action) : Decidable (Undisturbed c r s a) :=
  decidable_of_iff (HandlesWell c r s a ∧ (∀ x ∈ awaited r s, Spares r x s a) ∧
      ∀ x ∈ handled r s, ¬ Sends x r s a)
    ⟨fun h => ⟨h.1, h.2.1, h.2.2⟩, fun h => ⟨h.handles, h.spares, h.sends⟩⟩

variable {c : ℕ} {r x : String} {s s' : State} {a : Action} {k : Call}

/-! ### Calls and their tasks -/

/-- A task stays until it is its turn. -/
theorem stays_or_turn (hn : Next s a s') {t : Task} (ht : t ∈ s.tasks) (hc : t.call.isSome) :
    t ∈ s'.tasks ∨ ∃ i err, a = .advance i err ∧ s.tasks[i]? = some t := by
  have key : ∀ {i err t₀}, s.tasks[i]? = some t₀ → a = .advance i err →
      (∀ t ∈ (s.drop i).tasks, t ∈ s'.tasks) →
      t ∈ s'.tasks ∨ ∃ i err, a = .advance i err ∧ s.tasks[i]? = some t := by
    intro i err t₀ h₀ ha hsub
    rcases List.mem_cons.mp ((perm_drop h₀).mem_iff.mp ht) with rfl | hmem
    · exact Or.inr ⟨i, err, ha, h₀⟩
    · exact Or.inl (hsub t hmem)
  have hadd : ∀ {i : ℕ} {ts : List Task}, ∀ t ∈ (s.drop i).tasks, t ∈ (s.drop i).tasks ++ ts :=
    fun t h => List.mem_append_left _ h
  cases hn with
  | stay hs => exact Or.inl ht
  | lookup ha c p q hp => exact Or.inl (List.mem_append_left _ ht)
  | tapped ha c m r hm hr => exact Or.inl (List.mem_append_left _ ht)
  | load ha c m hm => exact Or.inl (List.mem_append_left _ ht)
  | ended i err t₀ h₀ he => exact key h₀ rfl fun t h => h
  | answer i err flow c p q h₀ result hr => exact key h₀ rfl hadd
  | free i err flow c username result h₀ hr => exact key h₀ rfl hadd
  | loggedIn i err flow c u h₀ hc => exact key h₀ rfl fun t h => h
  | checked i err flow c username result h₀ hr => exact key h₀ rfl hadd
  | called i err k h₀ hm =>
    refine key h₀ rfl ?_
    unfold State.call
    split_ifs <;> exact hadd
  | loadAnswer i err flow c uuid h₀ answer ha => exact key h₀ rfl hadd
  | loaded i err flow c answer h₀ m hm => exact key h₀ rfl fun t h => h
  | stored i k w h₀ => exact key h₀ rfl fun t h => h
  | deleteFailed i k h₀ => exact key h₀ rfl hadd
  | deleteStored i k h₀ => exact key h₀ rfl hadd
  | completed i err err' k h₀ m hm => exact key h₀ rfl hadd
  | created i flow username uid h₀ hu =>
    rcases List.mem_cons.mp ((perm_drop h₀).mem_iff.mp ht) with rfl | hmem
    · cases hc
    · exact Or.inl (hadd t hmem)
  | enrollFailed i flow u h₀ => exact key h₀ rfl fun t h => h
  | enrolled i flow u h₀ => exact key h₀ rfl fun t h => h

/-- The step runs the body of the call. -/
def Calls (s : State) (a : Action) (k : Call) : Prop :=
  ∃ i err, a = .advance i err ∧
    s.tasks[i]? = some (.answered k.flow k.client (.call k.op) (.ok k.user)) ∧
    s.session k.client = some k.currentUser

theorem called_next (hn : Next s a s') (h : .called k ∈ s'.log) :
    .called k ∈ s.log ∨ Calls s a k := by
  have hcons : ∀ e : Event, e ≠ .called k → .called k ∈ e :: s.log → .called k ∈ s.log :=
    fun _ hne h => (List.mem_cons.mp h).resolve_left fun he => hne he.symm
  cases hn with
  | called i err k' ht hm =>
    rw [call_log] at h
    rcases List.mem_cons.mp h with he | h
    · cases he
      exact Or.inr ⟨i, err, rfl, ht, hm⟩
    · exact Or.inl h
  | stored i k' w ht => exact Or.inl (hcons (.stored k' w) nofun h)
  | deleteStored i k' ht => exact Or.inl (hcons (.stored k' _) nofun h)
  | created i flow username uid ht hu => exact Or.inl (hcons (.created flow uid) nofun h)
  | enrollFailed i flow u ht => exact Or.inl (hcons (.completed flow u.uuid) nofun h)
  | enrolled i flow u ht => exact Or.inl (hcons (.completed flow u.uuid) nofun h)
  | _ => exact Or.inl h

/-- A task of a call continues another one, or the call is made by the step. -/
theorem call_next (hs : Sound s) (hn : Next s a s') {t : Task} (hin : t ∈ s'.tasks)
    (hk : t.call = some k) : (∃ t₀ ∈ s.tasks, t₀.Continues k) ∨ Calls s a k := by
  rcases mem_tasks_next hn hin with hold | hadd
  · exact Or.inl ⟨t, hold, k.currentUser, rfl, hk⟩
  cases hadd with
  | deleting i err k' ht hm hop =>
    obtain rfl := Option.some.inj hk
    exact Or.inr ⟨i, err, rfl, ht, hm⟩
  | issued i err k' ht hm hop w hw =>
    obtain rfl := Option.some.inj hk
    exact Or.inr ⟨i, err, rfl, ht, hm⟩
  | deleted i err k' ht => exact Or.inl ⟨_, List.mem_of_getElem? ht, k.currentUser, rfl, hk⟩
  | completed i err err' k' ht m hm w hw =>
    obtain rfl := Option.some.inj hk
    -- the session is still of the user that the accept was called for
    obtain ⟨-, ⟨m', hm', huuid⟩, -⟩ := hs.tasks _ (List.mem_of_getElem? ht)
    obtain rfl : m' = m := Option.some.inj (hm'.symm.trans hm)
    exact Or.inl ⟨_, List.mem_of_getElem? ht, k'.currentUser, huuid.symm, rfl⟩
  | _ => cases hk

/-- The calls whose tasks are outstanding are in the log. -/
def Recorded (s : State) : Prop :=
  ∀ t ∈ s.tasks, ∀ k, t.call = some k → ∃ k₀, .called k₀ ∈ s.log ∧ t.Continues k₀

theorem Recorded.step (h : Recorded s) (hs : Sound s) (he : Extends s (step s a)) :
    Recorded (step s a) := by
  intro t ht k hcall
  rcases call_next hs (next_step s a) ht hcall with ⟨t₀, ht₀, m, hm, hcall₀⟩ | ⟨i, err, rfl, hi, hm⟩
  · obtain ⟨k₀, hk₀, m', hm', heq⟩ := h t₀ ht₀ _ hcall₀
    rw [hcall₀, Option.some.injEq] at heq
    have hcur : m = m' := congrArg Call.currentUser heq
    refine ⟨k₀, he.log.subset hk₀, k.currentUser, by rw [← hm, hcur, hm'], ?_⟩
    rw [hcall]
    exact congrArg (fun k' : Call => some { k' with currentUser := k.currentUser }) heq
  · refine ⟨k, ?_, k.currentUser, rfl, hcall⟩
    rw [step_calls hi hm, call_log]
    exact List.mem_cons_self

theorem Initial.recorded_run (hs : Initial s) (as : List Action) :
    Recorded (Runs.run step s as) := by
  have hI : ∀ t, Recorded t ∧ Sound t ∧ Identified t ∧ AllIssued t → ∀ a,
      Recorded (step t a) ∧ Sound (step t a) ∧ Identified (step t a) ∧ AllIssued (step t a) := by
    rintro t ⟨hr, hs, hid, hi⟩ a
    have hn := next_step t a
    exact ⟨hr.step hs (hid.extends hn), hs.next hn, hid.next hi hn, hi.next hn⟩
  refine (Runs.invariant (I := fun t => Recorded t ∧ Sound t ∧ Identified t ∧ AllIssued t)
    (fun t a h => hI t h a) ⟨fun t ht => ?_, hs.sound, hs.start.identified, hs.start.allIssued⟩ as).1
  rw [hs.tasks] at ht
  cases ht

/-- Only `c` is logged in as `r`. -/
def OneClient (c : ℕ) (r : String) (s : State) : Prop := ∀ c', LoggedIn s c' r → c' = c

theorem OneClient.next (h : OneClient c r s) (hn : Next s a s') (hC : HandlesWell c r s a) :
    OneClient c r s' := by
  rintro c' ⟨m, hm, rfl⟩
  obtain hold | hassigned := session_of_next hn hm
  · exact h c' ⟨m, hold, rfl⟩
  obtain ⟨-, i, err, flow, rfl, ht⟩ | ⟨m₀, hm₀, huuid, -⟩ := hassigned.identity
  · simp only [HandlesWell, ht] at hC
    exact hC trivial
  · exact h c' ⟨m₀, hm₀, huuid.symm⟩

/-! ### A request that is gone -/

theorem Cleared.gone (h : Cleared c r s x) (hs : Sound s) (hone : OneClient c r s) :
    Gone r s x := by
  refine ⟨h.absent, fun c' m hm hr q hq hx => h.memory ?_⟩
  obtain rfl := hone c' ⟨m, hm, hr⟩
  have hown := ((hs.session c' m hm).requests q hq).receivingUser
  have heq : q = ⟨x, r⟩ := by rw [← hx, ← hr, ← hown]
  rw [requests_eq hm]
  exact heq ▸ hq

/-- A client that saves its data saves no request that it does not have. -/
theorem Cleared.spares (h : Cleared c r s x) (hone : OneClient c r s) (a : Action) :
    Spares r x s a := by
  have hkept : ∀ {c' : ℕ} {m o : User} {op : Operation}, s.session c' = some m → m.uuid = r →
      ⟨x, r⟩ ∉ kept m o op := by
    intro c' m o op hm hr hmem
    obtain rfl := hone c' ⟨m, hm, hr⟩
    refine h.memory ?_
    rw [requests_eq hm]
    exact kept_subset m o op hmem
  cases a with
  | advance i err =>
    simp only [Spares]
    split
    · exact fun m hm _ hr _ => hkept hm hr
    · exact fun _ _ => h.absent
    · exact fun m hm hr _ => hkept hm hr
    · trivial
  | _ => trivial

/-- Only a send brings a request back that is gone. -/
theorem Cleared.next (h : Cleared c r s x) (hs : Sound s) (hb : AllBare s)
    (hone : OneClient c r s) (hn : Next s a s') (hsend : ¬ Sends x r s a) : Cleared c r s' x where
  absent := h.settled.absent_next hn h.absent
  memory := h.settled.not_mem_next hb hn h.memory
  settled := h.settled.next hs hb hn hsend (h.spares hone a)

/-! ### A request that is being handled -/

/-- What is known while a task of its handling is outstanding: an ignore took the request out of
the memory and is to delete the document; an accept is to delete it, or has deleted it and is
to take the request out of the memory. -/
def Waits (c : ℕ) (r x : String) (s : State) : Task → Prop
  | .writing _ w => w = .deleteRequest r (requestTitle x r) ∧ ⟨x, r⟩ ∉ requests s c
  | .deleting _ => True
  | .deleted _ err => err = false ∧ Absent r s x
  | _ => False

/-- The request of the call is gone, or its handling is waiting. -/
def Stage (c : ℕ) (r : String) (s : State) (k : Call) : Prop :=
  Cleared c r s k.user.uuid ∨ Settled r s k.user.uuid ∧
    ∃ t ∈ s.tasks, t.Continues k ∧ Waits c r k.user.uuid s t

theorem Task.Continues.handled_mem {t : Task} (ht : t ∈ s.tasks) (h : t.Continues k)
    (hk : k.Handles r) : k.user.uuid ∈ handled r s := by
  obtain ⟨m, hm, hcall⟩ := h
  refine List.mem_filterMap.mpr ⟨t, ht, ?_⟩
  rw [hcall, Option.bind_some, if_pos ⟨hk.1, hm.trans hk.2⟩]

theorem Waits.awaited_mem {t : Task} (h : Waits c r k.user.uuid s t) (ht : t ∈ s.tasks)
    (hcont : t.Continues k) (hk : k.Handles r) : k.user.uuid ∈ awaited r s := by
  obtain ⟨m, hm, hcall⟩ := hcont
  refine List.mem_filterMap.mpr ⟨t, ht, ?_⟩
  cases t with
  | writing k' w =>
    obtain ⟨rfl, -⟩ := h
    obtain rfl := Option.some.inj hcall
    exact if_pos ⟨hk.1, hm.trans hk.2⟩
  | deleting k' =>
    obtain rfl := Option.some.inj hcall
    exact if_pos ⟨hk.1, hm.trans hk.2⟩
  | deleted k' err =>
    obtain ⟨rfl, -⟩ := h
    obtain rfl := Option.some.inj hcall
    exact if_pos ⟨hk.1, hm.trans hk.2⟩
  | _ => cases hcall

/-- A waiting task of which it is not the turn goes on waiting. -/
theorem Waits.next {t : Task} (h : Waits c r x s t) (hset : Settled r s x) (hb : AllBare s)
    (hn : Next s a s') : Waits c r x s' t := by
  cases t with
  | writing k w => exact ⟨h.1, hset.not_mem_next hb hn h.2⟩
  | deleting k => trivial
  | deleted k err => exact ⟨h.1, hset.absent_next hn h.2⟩
  | _ => cases h

/-- The turn of a waiting task: the delete of an ignore and the acknowledgement of an accept
leave the request gone. -/
theorem Waits.turn {i : ℕ} {err : Bool} {t : Task} (h : Waits c r k.user.uuid s t)
    (ht : s.tasks[i]? = some t) (hcont : t.Continues k) (hk : k.Handles r) (hs : Sound s)
    (hone : OneClient c r s) (hC : Undisturbed c r s (.advance i err))
    (hcl : ¬ Cleared c r s k.user.uuid)
    (hset : Settled r (step s (.advance i err)) k.user.uuid) :
    Stage c r (step s (.advance i err)) k := by
  have hwell := hC.handles
  have hsp := hC.spares _ (h.awaited_mem (List.mem_of_getElem? ht) hcont hk)
  have hcont' := hcont
  obtain ⟨m, hm, hcall⟩ := hcont
  have hmr : m.uuid = r := hm.trans hk.2
  cases t with
  | writing k' w =>
    obtain ⟨rfl, hmem⟩ := h
    obtain rfl := Option.some.inj hcall
    cases err with
    | true =>
      simp only [HandlesWell, ht] at hwell
      exact absurd (hwell trivial ⟨hk.1, hmr⟩) hcl
    | false =>
      refine Or.inl ⟨?_, ?_, hset⟩
      · simp only [step, ht, proceed, Bool.false_eq_true, if_false, Absent, State.record,
          State.write, Store.apply_deleteRequest_get?, and_self, if_true]
      · simp only [step, ht]
        exact hmem
  | deleting k' =>
    obtain rfl := Option.some.inj hcall
    cases err with
    | true =>
      simp only [HandlesWell, ht] at hwell
      exact absurd (hwell trivial ⟨hk.1, hmr⟩) hcl
    | false =>
      refine Or.inr ⟨hset, .deleted { k with currentUser := m } false, ?_, hcont', rfl, ?_⟩
      · simp only [step, ht, proceed]
        exact List.mem_append_right _ List.mem_cons_self
      · simp only [step, ht, proceed, Bool.false_eq_true, if_false, Absent, State.add,
          State.record, State.write, acceptFriendRequest, hmr, Store.apply_deleteRequest_get?,
          and_self, if_true]
  | deleted k' err' =>
    obtain ⟨rfl, habsent⟩ := h
    obtain rfl := Option.some.inj hcall
    obtain ⟨-, ⟨m', hm', huuid⟩, -⟩ := hs.tasks _ (List.mem_of_getElem? ht)
    have hmr' : m'.uuid = r := huuid.trans hmr
    obtain hc : k.client = c := hone _ ⟨m', hm', hmr'⟩
    simp only [HandlesWell, Spares, ht] at hwell hsp
    refine Or.inl ⟨?_, ?_, hset⟩
    · simp only [step, ht, proceed, State.drop, hm']
      exact habsent
    · have hstep : step s (.advance i err) = (s.drop i).issue { k with currentUser := m' }
          (acceptDeleted k.user m' false) := by simp only [step, ht, proceed, State.drop, hm']
      rw [hstep, requests_issue, if_pos hc.symm, acceptDeleted_requests]
      by_cases hreq : ⟨k.user.uuid, r⟩ ∈ m'.friendRequests
      · -- the completion reaches the removal, and there was one copy only
        have hf := hwell m' hm' hmr' hreq
        rw [if_pos ⟨rfl, hf⟩]
        exact hsp m' hm' hmr' ⟨hf, hmr'.symm ▸ hreq⟩
      · split_ifs
        · exact fun hmem => hreq (List.mem_of_mem_erase hmem)
        · exact hreq
  | _ => cases hcall

theorem Stage.next (h : Stage c r s k) (hk : k.Handles r) (hs : Sound s) (hb : AllBare s)
    (hone : OneClient c r s) (hC : Undisturbed c r s a)
    (hout : ∃ t ∈ s.tasks, t.Continues k) : Stage c r (step s a) k := by
  have hn := next_step s a
  obtain ⟨t₀, ht₀, hcont₀⟩ := hout
  have hsend := hC.sends _ (hcont₀.handled_mem ht₀ hk)
  by_cases hcl : Cleared c r s k.user.uuid
  · exact Or.inl (hcl.next hs hb hone hn hsend)
  obtain ⟨hset, t, ht, hcont, hw⟩ := h.resolve_left hcl
  have hset' := hset.next hs hb hn hsend (hC.spares _ (hw.awaited_mem ht hcont hk))
  have hcall : t.call.isSome := by
    obtain ⟨m, -, hcall⟩ := hcont
    rw [hcall]
    rfl
  rcases stays_or_turn hn ht hcall with ht' | ⟨i, err, rfl, hi⟩
  · exact Or.inr ⟨hset', t, ht', hcont, hw.next hset hb hn⟩
  · exact hw.turn hi hcont hk hs hone hC hcl hset'

/-- The call itself: the handling begins. -/
theorem Calls.stage (h : Calls s a k) (hk : k.Handles r) (hs : Sound s) (hb : AllBare s)
    (hone : OneClient c r s) (hC : Undisturbed c r s a) : Stage c r (step s a) k := by
  obtain ⟨i, err, rfl, ht, hm⟩ := h
  have hn := next_step s (.advance i err)
  rw [step_calls ht hm] at hn ⊢
  have hwell := hC.handles
  simp only [HandlesWell, ht] at hwell
  have hsend : ¬ Sends k.user.uuid r s (.advance i err) := by
    rcases hk.1 with hop | hop <;> simp [Sends, ht, hop]
  obtain hc : k.client = c := hone _ ⟨_, hm, hk.2⟩
  rcases hk.1 with hop | hop
  · rw [hop] at hwell
    obtain hcl | ⟨hmem, hkept, hset⟩ := hwell _ hm hk.2
    · exact Or.inl (hcl.next hs hb hone hn hsend)
    · have hsp : Spares r k.user.uuid s (.advance i err) := by
        simp only [Spares, ht, hop]
        rintro m hm' - - -
        obtain rfl : k.currentUser = m := Option.some.inj (hm.symm.trans hm')
        exact hkept
      refine Or.inr ⟨hset.next hs hb hn hsend hsp, ?_⟩
      have hmem' : ⟨k.user.uuid, k.currentUser.uuid⟩ ∈ k.currentUser.friendRequests :=
        hk.2.symm ▸ hmem
      have hcall : (s.drop i).call k = ((s.drop i).record (.called k)).issue k
          (ignoreFriendRequest k.user k.currentUser) := by
        simp [State.call, hop, perform]
      rw [hcall, ignoreFriendRequest_pending hmem']
      refine ⟨.writing k (.deleteRequest k.currentUser.uuid
        (requestTitle k.user.uuid k.currentUser.uuid)), ?_, ⟨k.currentUser, rfl, rfl⟩, ?_, ?_⟩
      · exact List.mem_append_right _ List.mem_cons_self
      · rw [hk.2]
      · rw [requests_issue, if_pos hc.symm]
        have hkept' : ⟨k.user.uuid, r⟩ ∉ k.currentUser.friendRequests.erase
          ⟨k.user.uuid, k.currentUser.uuid⟩ := hkept
        exact hkept'
  · rw [hop] at hwell
    have hsp : Spares r k.user.uuid s (.advance i err) := by
      simp only [Spares, ht, hop]
      exact fun m _ hne => absurd rfl hne
    refine Or.inr ⟨(hwell _ hm hk.2).next hs hb hn hsend hsp, .deleting k, ?_,
      ⟨k.currentUser, rfl, rfl⟩, trivial⟩
    rw [State.call, if_pos hop]
    exact List.mem_append_right _ List.mem_cons_self

/-! ### Runs -/

/-- What holds in every state of a run whose steps meet the condition. -/
structure Orderly (c : ℕ) (r : String) (s : State) : Prop where
  sound : Sound s
  bare : AllBare s
  oneClient : OneClient c r s
  staged : ∀ t ∈ s.tasks, ∀ k, t.call = some k → k.Handles r → Stage c r s k

/-- The stage of a call is that of any of its tasks. -/
theorem Orderly.stage (h : Orderly c r s) (hk : k.Handles r) {t : Task} (ht : t ∈ s.tasks)
    (hcont : t.Continues k) : Stage c r s k := by
  obtain ⟨m, hm, hcall⟩ := hcont
  rcases h.staged t ht _ hcall ⟨hk.1, hm.trans hk.2⟩ with hcl | ⟨hset, t', ht', ⟨m', hm', hcall'⟩, hw⟩
  · exact Or.inl hcl
  · exact Or.inr ⟨hset, t', ht', ⟨m', hm'.trans hm, hcall'⟩, hw⟩

theorem Orderly.step (h : Orderly c r s) (hC : Undisturbed c r s a) : Orderly c r (step s a) := by
  have hn := next_step s a
  refine ⟨h.sound.next hn, h.bare.next hn, h.oneClient.next hn hC.handles,
    fun t ht k hcall hk => ?_⟩
  rcases call_next h.sound hn ht hcall with ⟨t₀, ht₀, hcont⟩ | hcalls
  · exact (h.stage hk ht₀ hcont).next hk h.sound h.bare h.oneClient hC ⟨t₀, ht₀, hcont⟩
  · exact hcalls.stage hk h.sound h.bare h.oneClient hC

/-- A call that finishes leaves its request gone. -/
theorem Orderly.finishes (h : Orderly c r s) (hC : Undisturbed c r s a) (hk : k.Handles r)
    (hf : Finishes k s a) : Cleared c r (Interleaved.step s a) k.user.uuid := by
  obtain ⟨hnot, hlog, hnone⟩ := hf
  have hn := next_step s a
  have hstage : Stage c r (Interleaved.step s a) k := by
    rcases called_next hn hlog with hold | hcalls
    · obtain ⟨t, ht, hcont⟩ : ∃ t ∈ s.tasks, t.Continues k := by
        by_contra hno
        exact hnot ⟨hold, fun t ht hcont => hno ⟨t, ht, hcont⟩⟩
      exact (h.stage hk ht hcont).next hk h.sound h.bare h.oneClient hC ⟨t, ht, hcont⟩
    · exact hcalls.stage hk h.sound h.bare h.oneClient hC
  rcases hstage with hcl | ⟨-, t, ht, hcont, -⟩
  · exact hcl
  · exact absurd hcont (hnone t ht)

theorem Initial.orderly (hs : Initial s) (c : ℕ) (r : String) : Orderly c r s := by
  refine ⟨hs.sound, fun t ht => ?_, ?_, fun t ht => ?_⟩
  · rw [hs.tasks] at ht
    cases ht
  · rintro c' ⟨m, hm, -⟩
    rw [hs.session c'] at hm
    cases hm
  · rw [hs.tasks] at ht
    cases ht

/-- In every run whose steps all meet the condition, a request to `r` that was ignored or
accepted is gone when the call has finished, and stays so until it is sent again. -/
theorem staysHandled_of_steps {s : State} (hs : Initial s) (c : ℕ) (r : String)
    {as : List Action} (h : Runs.Each step (Undisturbed c r) s as) : StaysHandled r s as := by
  intro k hk
  refine Runs.after_of_each (I := Orderly c r)
    (J := fun t => Orderly c r t ∧ Cleared c r t k.user.uuid) (fun t ht => ?_)
    (fun t a ht hC => ht.step hC) (fun t a ht hC hf => ⟨ht.step hC, ht.finishes hC hk hf⟩)
    (fun t a ht hC hcl hsend => ?_) (hs.orderly c r) h
  · exact ht.2.gone ht.1.sound ht.1.oneClient
  · exact ⟨ht.step hC, hcl.2.next ht.sound ht.bare ht.oneClient (next_step t a) hsend⟩

end

open PlainKit

/-- Ann's request is loaded twice, and Bob ignores it; the last write is on its way. -/
def loadedTwice : List Action := List.flatten [
  [.logIn 0 "a", .logIn 1 "b"], advances 0 4, [.addUserButtonPressed 0 "bob"], advances 0 5,
  [.load 1], advances 0 2, [.load 1], advances 0 2, [.ignore 1 "a"], advances 0 4]

/-- The second copy in memory is written back after the delete. -/
theorem loadedTwice_returns :
    requests (Runs.run step abc (loadedTwice ++ advances 0 1)) 1 = [⟨"a", "b"⟩] ∧
      ¬ Absent "b" (Runs.run step abc (loadedTwice ++ advances 0 1)) "a" ∧
      ¬ StaysHandled "b" abc (loadedTwice ++ advances 0 1) := by
  have hpresent : ¬ Absent "b" (Runs.run step abc (loadedTwice ++ advances 0 1)) "a" := by
    decide +kernel
  refine ⟨by decide +kernel, hpresent, fun h => ?_⟩
  have hinit : Initial abc := initial_signedUp _
  have hcalls : ∀ t ∈ (Runs.run step abc loadedTwice).tasks, ∃ k ∈ t.call,
      k.op = .ignore ∧ k.currentUser.uuid = "b" ∧ k.user.uuid = "a" := by decide +kernel
  have hout : 0 < (Runs.run step abc loadedTwice).tasks.length := by decide +kernel
  obtain ⟨t, ht⟩ := List.exists_mem_of_length_pos hout
  obtain ⟨k, hk, hop, hr, hx⟩ := hcalls t ht
  obtain ⟨k₀, hlog, m, hm, hcall⟩ := hinit.recorded_run loadedTwice t ht k hk
  obtain rfl : { k₀ with currentUser := m } = k := Option.some.inj (hcall.symm.trans hk)
  have hext := (hinit.start.identified_run loadedTwice).extends (next_step _ (.advance 0 false))
  have hfin : Finishes k₀ (Runs.run step abc loadedTwice) (.advance 0 false) := by
    refine ⟨fun hf => hf.2 t ht ⟨m, hm, hcall⟩, hext.log.subset hlog, fun t' ht' => ?_⟩
    have hnone : (step (Runs.run step abc loadedTwice) (.advance 0 false)).tasks.length = 0 := by
      decide +kernel
    rw [List.length_eq_zero_iff.mp hnone] at ht'
    cases ht'
  have hgone := Runs.After.next (h k₀ ⟨Or.inl hop, hm.symm.trans hr⟩) hfin
  rw [hx] at hgone
  refine hpresent ?_
  rw [Runs.run_append]
  exact hgone.absent

/-- Bob accepts Ann's request, and his client loads again. -/
def acceptedOnce : List Action := List.flatten [
  [.logIn 0 "a", .logIn 1 "b"], advances 0 4, [.addUserButtonPressed 0 "bob"], advances 0 5,
  [.load 1], advances 0 2, [.addFwen 1 0], advances 0 6, [.load 1], advances 0 2]

theorem staysHandled_of_steps_acceptedOnce :
    (Runs.run step abc acceptedOnce).store.friends "a" = ["bob"] ∧
      requests (Runs.run step abc acceptedOnce) 1 = [] ∧
      StaysHandled "b" abc acceptedOnce :=
  ⟨by decide +kernel, by decide +kernel,
    staysHandled_of_steps (initial_signedUp _) 1 "b" (by decide +kernel)⟩

end JamSession.Interleaved
