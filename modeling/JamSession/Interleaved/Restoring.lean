import JamSession.Interleaved.Consent
import JamSession.Interleaved.Requests

/-! What can bring a request back. A request comes into a memory with the answer of a load, and
into the store by a write: the one of a send, or one of a save of the client that has it in
memory. Copies of other users carry no requests, and the key of a document determines its
sender, so every other write leaves the document of the request alone. -/

namespace JamSession.Interleaved

open UserController JamSession.Sequential

variable [UIKit]

/-! ### The requests that an operation saves -/

/-- The operation saves the data of the current user `m`. -/
def Saves (m o : User) : Operation → Prop
  | .send => False
  | .accept => o.username ∉ m.friends ∧ ⟨o.uuid, m.uuid⟩ ∈ m.friendRequests
  | .ignore => ⟨o.uuid, m.uuid⟩ ∈ m.friendRequests
  | .unfriend => o.username ∈ m.friends ∧ m.username ∈ o.friends
  | .block => True

/-- The requests that the operation leaves in memory when it saves. -/
def kept (m o : User) : Operation → List FriendRequest
  | .accept | .ignore => m.friendRequests.erase ⟨o.uuid, m.uuid⟩
  | .send | .unfriend | .block => m.friendRequests

instance (m o : User) (op : Operation) : Decidable (Saves m o op) := by
  cases op <;> simp only [Saves] <;> infer_instance

theorem kept_subset (m o : User) (op : Operation) : kept m o op ⊆ m.friendRequests := by
  cases op with
  | accept => exact List.erase_subset
  | ignore => exact List.erase_subset
  | send => exact List.Subset.refl _
  | unfriend => exact List.Subset.refl _
  | block => exact List.Subset.refl _

/-- The write stores the request of `x` to `r`. -/
def Restores (r x : String) : Write → Prop
  | .setRequest receiver title _ => receiver = r ∧ title = requestTitle x r
  | _ => False

instance (r x : String) (w : Write) : Decidable (Restores r x w) := by
  unfold Restores
  split <;> infer_instance

section Operations

variable {m o u : User} {r x : String} {w : Write}

theorem restores_saveUser (hu : ∀ q ∈ u.friendRequests, q.receivingUser = u.uuid)
    (hw : w ∈ saveUser u) (hr : Restores r x w) : u.uuid = r ∧ ⟨x, r⟩ ∈ u.friendRequests := by
  rcases List.mem_cons.mp hw with rfl | hw
  · cases hr
  · obtain ⟨q, hq, rfl⟩ := List.mem_map.mp hw
    obtain ⟨rfl, ht⟩ := hr
    -- the key determines the sender
    rw [hu q hq, requestTitle_inj] at ht
    have heq : q = ⟨x, u.uuid⟩ := by rw [← ht, ← hu q hq]
    exact ⟨rfl, heq ▸ hq⟩

theorem restores_bare (hu : u.friendRequests = []) (hw : w ∈ saveUser u) : ¬ Restores r x w := by
  intro hr
  have hmem := (restores_saveUser (by simp [hu]) hw hr).2
  rw [hu] at hmem
  cases hmem

variable (hm : ∀ q ∈ m.friendRequests, q.receivingUser = m.uuid) (ho : o.friendRequests = [])
include hm ho

theorem restores_unfriendUser (hw : w ∈ (unfriendUser m o).writes) (hr : Restores r x w) :
    m.uuid = r ∧ Saves m o .unfriend ∧ ⟨x, r⟩ ∈ m.friendRequests := by
  by_cases hf : o.username ∈ m.friends
  · by_cases hf' : m.username ∈ o.friends
    · rw [unfriendUser_mutual hf hf'] at hw
      rcases List.mem_append.mp hw with hw | hw
      · exact absurd hr (restores_bare (u := o.removeFriend m.username) ho hw)
      · obtain ⟨huuid, hmem⟩ := restores_saveUser (u := m.removeFriend o.username) hm hw hr
        exact ⟨huuid, ⟨hf, hf'⟩, hmem⟩
    · simp [unfriendUser_oneSided hf hf'] at hw
  · simp [unfriendUser_stranger hf] at hw

theorem restores_acceptDeleted {err : Bool} (hw : w ∈ (acceptDeleted o m err).writes)
    (hr : Restores r x w) :
    err = false ∧ m.uuid = r ∧ Saves m o .accept ∧ ⟨x, r⟩ ∈ kept m o .accept := by
  cases err with
  | true => simp [acceptDeleted_err] at hw
  | false =>
    by_cases hf : o.username ∈ m.friends
    · simp [acceptDeleted_friend hf] at hw
    by_cases hreq : ⟨o.uuid, m.uuid⟩ ∈ m.friendRequests
    · rw [acceptDeleted_pending hf hreq] at hw
      rcases List.mem_append.mp hw with hw | hw
      · exact absurd hr (restores_bare (u := o.addFriend m.username) ho hw)
      · obtain ⟨huuid, hmem⟩ := restores_saveUser
          (u := (m.addFriend o.username).removeRequest ⟨o.uuid, m.uuid⟩)
          (fun q hq => hm q (List.mem_of_mem_erase hq)) hw hr
        exact ⟨rfl, huuid, ⟨hf, hreq⟩, hmem⟩
    · rw [acceptDeleted_missing hf hreq] at hw
      exact absurd hr (restores_bare (u := o.addFriend m.username) ho hw)

/-- A call that stores a request is a send of it, or saves it from memory. -/
theorem restores_perform {op : Operation} (hop : op ≠ .accept) (hw : w ∈ (perform m o op).writes)
    (hr : Restores r x w) : op = .send ∧ m.uuid = x ∧ o.uuid = r ∨
      m.uuid = r ∧ Saves m o op ∧ ⟨x, r⟩ ∈ kept m o op := by
  cases op with
  | accept => exact absurd rfl hop
  | send =>
    obtain ⟨-, rfl⟩ := mem_sendFriendRequest.mp hw
    obtain ⟨rfl, ht⟩ := hr
    exact Or.inl ⟨rfl, requestTitle_inj.mp ht, rfl⟩
  | ignore =>
    by_cases hreq : ⟨o.uuid, m.uuid⟩ ∈ m.friendRequests
    · simp only [perform, ignoreFriendRequest_pending hreq] at hw
      rcases List.mem_cons.mp hw with rfl | hw
      · cases hr
      · obtain ⟨huuid, hmem⟩ := restores_saveUser (u := m.removeRequest ⟨o.uuid, m.uuid⟩)
          (fun q hq => hm q (List.mem_of_mem_erase hq)) hw hr
        exact Or.inr ⟨huuid, hreq, hmem⟩
    · simp [perform, ignoreFriendRequest_missing hreq] at hw
  | unfriend =>
    obtain ⟨huuid, hsaves, hmem⟩ := restores_unfriendUser hm ho hw hr
    exact Or.inr ⟨huuid, hsaves, hmem⟩
  | block =>
    simp only [perform, blockUser_eq] at hw
    rcases List.mem_append.mp hw with hw | hw
    · obtain ⟨huuid, -, hmem⟩ := restores_unfriendUser hm ho hw hr
      exact Or.inr ⟨huuid, trivial, hmem⟩
    · have hreq := unfriendUser_requests m o
      have huuid := (unfriendUser_rest m o).1
      obtain ⟨huuid', hmem⟩ := restores_saveUser
        (u := (unfriendUser m o).currentUser.addBlocked o.username) (fun q hq => by
          rw [User.addBlocked, hreq] at hq
          exact (hm q hq).trans huuid.symm) hw hr
      rw [User.addBlocked, hreq] at hmem
      exact Or.inr ⟨huuid.symm.trans huuid', trivial, hmem⟩

end Operations

/-! ### Copies without requests -/

/-- The copy of a user that a lookup made carries no requests. -/
def Task.Bare : Task → Prop
  | .answered _ _ _ (.ok u) => u.friendRequests = []
  | .deleting k | .deleted k _ => k.user.friendRequests = []
  | _ => True

def AllBare (s : State) : Prop := ∀ t ∈ s.tasks, t.Bare

variable {s s' : State} {a : Action}

theorem AllBare.next (h : AllBare s) (hn : Next s a s') : AllBare s' := by
  intro t hin
  rcases mem_tasks_next hn hin with hold | hadd
  · exact h t hold
  cases hadd with
  | answered i err flow c p q ht result hr =>
    cases result with
    | error e => trivial
    | ok u => exact Query.answer_bare (hr u rfl)
  | deleting i err k ht hm hop =>
    have hk : k.user.friendRequests = [] := h _ (List.mem_of_getElem? ht)
    exact hk
  | deleted i err k ht =>
    have hk : k.user.friendRequests = [] := h _ (List.mem_of_getElem? ht)
    exact hk
  | _ => trivial

/-! ### Steps that bring a request back -/

/-- The task is to store the request of `x` to `r`, or to load it. -/
def Task.Brings (r x : String) : Task → Prop
  | .loaded _ _ (some ds) => ⟨x, r⟩ ∈ ds.filterMap FriendRequest.fromStringAny
  | .writing _ w => Restores r x w
  | _ => False

/-- The step calls `sendFriendRequest` for `x` to `r`. -/
def Sends (x r : String) (s : State) : Action → Prop
  | .advance i _ => match s.tasks[i]? with
    | some (.answered _ c (.call .send) (.ok o)) => o.uuid = r ∧ ∃ m ∈ s.session c, m.uuid = x
    | _ => False
  | _ => False

/-- No document of the request is stored. -/
def Absent (r : String) (s : State) (x : String) : Prop :=
  (s.store.friendRequests r).get? (requestTitle x r) = none

/-- No write of the request is on its way, and no answer with it. -/
def Settled (r : String) (s : State) (x : String) : Prop := ∀ t ∈ s.tasks, ¬ t.Brings r x

/-- The step neither saves the request from memory nor answers a load with it. -/
def Spares (r x : String) (s : State) : Action → Prop
  | .advance i err => match s.tasks[i]? with
    | some (.answered _ c (.call op) (.ok o)) => ∀ m ∈ s.session c,
        op ≠ .accept → m.uuid = r → Saves m o op → ⟨x, r⟩ ∉ kept m o op
    | some (.loading _ _ uuid) => uuid = r → err = false → Absent r s x
    | some (.deleted k false) => ∀ m ∈ s.session k.client,
        m.uuid = r → Saves m k.user .accept → ⟨x, r⟩ ∉ kept m k.user .accept
    | _ => True
  | _ => True

instance (r x : String) (t : Task) : Decidable (t.Brings r x) := by
  unfold Task.Brings
  split <;> infer_instance

instance (x r : String) (s : State) (a : Action) : Decidable (Sends x r s a) := by
  induction a using Action.casesOn with
  | advance i err =>
    dsimp only [Sends]
    generalize s.tasks[i]? = o
    induction o using Option.casesOn with
    | none => exact instDecidableFalse
    | some t =>
      induction t using Task.casesOn with
      | answered flow c p result =>
        induction p using Purpose.casesOn with
        | call op =>
          induction op using Sequential.Operation.casesOn <;>
            induction result using Except.casesOn <;> infer_instance
        | _ => exact instDecidableFalse
      | _ => exact instDecidableFalse
  | _ => exact instDecidableFalse

instance (r : String) (s : State) (x : String) : Decidable (Absent r s x) :=
  inferInstanceAs (Decidable (_ = none))

instance (r : String) (s : State) (x : String) : Decidable (Settled r s x) :=
  inferInstanceAs (Decidable (∀ t ∈ s.tasks, ¬ t.Brings r x))

instance (r x : String) (s : State) (a : Action) : Decidable (Spares r x s a) := by
  induction a using Action.casesOn with
  | advance i err =>
    dsimp only [Spares]
    generalize s.tasks[i]? = o
    induction o using Option.casesOn with
    | none => exact instDecidableTrue
    | some t =>
      induction t using Task.casesOn with
      | answered flow c p result =>
        induction p using Purpose.casesOn <;> induction result using Except.casesOn <;>
          infer_instance
      | deleted k failed => induction failed using Bool.casesOn <;> infer_instance
      | _ => infer_instance
  | _ => exact instDecidableTrue

section Steps

variable {r x : String}

theorem Settled.next (h : Settled r s x) (hs : Sound s) (hb : AllBare s) (hn : Next s a s')
    (hsend : ¬ Sends x r s a) (hsp : Spares r x s a) : Settled r s' x := by
  have hown : ∀ {c m}, s.session c = some m → ∀ q ∈ m.friendRequests, q.receivingUser = m.uuid :=
    fun hm q hq => ((hs.session _ _ hm).requests q hq).receivingUser
  intro t hin
  rcases mem_tasks_next hn hin with hold | hadd
  · exact h t hold
  cases hadd with
  | issued i err k ht hm hop w hw =>
    intro hr
    have hk : k.user.friendRequests = [] := hb _ (List.mem_of_getElem? ht)
    simp only [Spares, ht] at hsp
    rcases restores_perform (hown hm) hk hop hw hr with ⟨hop', hx, hr'⟩ | ⟨huuid, hsaves, hmem⟩
    · refine hsend ?_
      rw [hop'] at ht
      simp only [Sends, ht]
      exact ⟨hr', k.currentUser, hm, hx⟩
    · exact hsp _ hm hop huuid hsaves hmem
  | loaded i err flow c uuid ht answer ha he =>
    cases answer with
    | none => nofun
    | some ds =>
      intro hmem
      obtain ⟨d, hd, hdec⟩ := List.mem_filterMap.mp hmem
      rw [ha ds rfl] at hd
      obtain ⟨⟨title, d'⟩, hentry, rfl⟩ := List.mem_map.mp hd
      have hget := (OrderedMap.get?_eq_some_iff _).mpr hentry
      obtain ⟨q, rfl, rfl, hq⟩ := hs.requests uuid title d' hget
      rw [FriendRequest.fromStringAny_toFireObj, Option.some.injEq] at hdec
      subst hdec
      obtain rfl : r = uuid := hq.receivingUser
      -- a document of the request was there when the load was answered
      simp only [Spares, ht] at hsp
      have hfalse : err = false := by
        cases err with
        | false => rfl
        | true => cases he rfl
      have habsent := hsp trivial hfalse
      rw [Absent, hget] at habsent
      cases habsent
  | completed i err err' k ht m hm w hw =>
    intro hr
    have hk : k.user.friendRequests = [] := hb _ (List.mem_of_getElem? ht)
    obtain ⟨rfl, huuid, hsaves, hmem⟩ := restores_acceptDeleted (hown hm) hk hw hr
    simp only [Spares, ht] at hsp
    exact hsp m hm huuid hsaves hmem
  | _ => nofun

/-- A request comes into memory by a load only. -/
theorem mem_requests_next {c : ℕ} {q : FriendRequest} (hb : AllBare s) (hn : Next s a s')
    (h : q ∈ requests s' c) : q ∈ requests s c ∨ ∃ flow ds,
      .loaded flow c (some ds) ∈ s.tasks ∧ q ∈ ds.filterMap FriendRequest.fromStringAny := by
  obtain heq | ⟨m', hm', hassigned⟩ := session_next hn c
  · rw [requests, heq] at h
    exact Or.inl h
  rw [requests_eq hm'] at h
  cases hassigned with
  | loggedIn i err flow c u ht hc =>
    have hu : m'.friendRequests = [] := hb _ (List.mem_of_getElem? ht)
    rw [hu] at h
    cases h
  | called i err k ht hm hop =>
    rw [requests_eq hm]
    exact Or.inl (perform_requests_subset _ _ _ h)
  | loaded i err flow c answer ht m hm =>
    rw [requests_eq hm]
    cases answer with
    | none => exact Or.inl h
    | some ds => exact (List.mem_append.mp h).imp id fun hq => ⟨flow, ds, List.mem_of_getElem? ht, hq⟩
  | completed i err err' k ht m hm =>
    rw [requests_eq hm]
    exact Or.inl (acceptDeleted_requests_subset _ _ _ h)

theorem Settled.not_mem_next {c : ℕ} (h : Settled r s x) (hb : AllBare s) (hn : Next s a s')
    (hm : ⟨x, r⟩ ∉ requests s c) : ⟨x, r⟩ ∉ requests s' c := by
  intro hmem
  rcases mem_requests_next hb hn hmem with hold | ⟨flow, ds, ht, hq⟩
  · exact hm hold
  · exact h _ ht hq

theorem Settled.absent_next (h : Settled r s x) (hn : Next s a s') (ha : Absent r s x) :
    Absent r s' x := by
  have hwrite : ∀ {w : Write}, ¬ Restores r x w → ∀ i, Absent r ((s.drop i).write w) x := by
    intro w hw i
    cases w with
    | setUser uuid dict => exact ha
    | setRequest receiver title dict =>
      unfold Absent
      rw [State.write, Store.apply_setRequest_get?,
        if_neg fun he => hw ⟨he.1.symm, he.2.symm⟩]
      exact ha
    | deleteRequest receiver title =>
      unfold Absent
      rw [State.write, Store.apply_deleteRequest_get?]
      split_ifs
      · rfl
      · exact ha
  cases hn with
  | stored i k w ht => exact hwrite (h _ (List.mem_of_getElem? ht)) i
  | deleteStored i k ht => exact hwrite (w := acceptFriendRequest k.user k.currentUser) id i
  | enrolled i flow u ht => exact hwrite (w := .setUser u.uuid u.toFireObj) id i
  | called i err k ht hm =>
    unfold State.call
    split_ifs <;> exact ha
  | _ => exact ha

end Steps

end JamSession.Interleaved
