import JamSession.Firestore.PlainKit
import JamSession.Interleaved.RequestKeys

/-! The request collections against the writes that were stored. A collection holds the
request of a sender exactly when a write of it was stored and no delete of it since. The write
was a send by the sender or a save by a client of the receiver that had the request in memory,
and the delete belonged to an accept or an ignore by a client of the receiver about that
sender. So nobody else can take a request away, and no write of another request touches it. -/

namespace JamSession.Interleaved

open UserController JamSession.Sequential

section

variable [UIKit]

/-- The write deletes the request of `x` to `r`. -/
def Removes (r x : String) : Write → Prop
  | .deleteRequest receiver title => receiver = r ∧ title = requestTitle x r
  | _ => False

/-- A write of the request was stored, and no delete of it since. -/
def RequestKept (log : List Event) (x r : String) : Prop :=
  ∃ later k w earlier, log = later ++ .stored k w :: earlier ∧ Restores r x w ∧
    ∀ k' w', .stored k' w' ∈ later → ¬ Removes r x w'

/-- A request is stored by a send of it or by a save from the memory of its receiver, and
deleted by an accept or an ignore of it. -/
structure Caused (k : Call) (w : Write) : Prop where
  restores : ∀ r x, Restores r x w → k.op = .send ∧ k.currentUser.uuid = x ∧ k.user.uuid = r ∨
    k.currentUser.uuid = r ∧ ⟨x, r⟩ ∈ k.currentUser.friendRequests
  removes : ∀ r x, Removes r x w → (k.op = .accept ∨ k.op = .ignore) ∧ k.user.uuid = x ∧
    k.currentUser.uuid = r

/-! ### What a call stores and deletes -/

section Operations

variable {k : Call} {m o u : User} {w : Write} {r x : String}

theorem not_removes_saveUser (hw : w ∈ saveUser u) : ¬ Removes r x w := by
  rcases List.mem_cons.mp hw with rfl | hw
  · exact id
  · obtain ⟨q, -, rfl⟩ := List.mem_map.mp hw
    exact id

theorem not_removes_unfriendUser (hw : w ∈ (unfriendUser m o).writes) : ¬ Removes r x w := by
  unfold unfriendUser at hw
  split_ifs at hw
  · rcases List.mem_append.mp hw with hw | hw <;> exact not_removes_saveUser hw
  · cases hw
  · cases hw

theorem not_removes_acceptDeleted {err : Bool} (hw : w ∈ (acceptDeleted o m err).writes) :
    ¬ Removes r x w := by
  simp only [acceptDeleted] at hw
  split_ifs at hw
  · cases hw
  · cases hw
  · rcases List.mem_append.mp hw with hw | hw <;> exact not_removes_saveUser hw
  · exact not_removes_saveUser hw

/-- The delete of an accept. -/
theorem removes_accept (h : Removes r x (acceptFriendRequest o m)) : o.uuid = x ∧ m.uuid = r := by
  obtain ⟨rfl, ht⟩ := h
  exact ⟨requestTitle_inj.mp ht, rfl⟩

theorem removes_perform {op : Operation} (hop : op ≠ .accept) (hw : w ∈ (perform m o op).writes)
    (h : Removes r x w) : op = .ignore ∧ o.uuid = x ∧ m.uuid = r := by
  cases op with
  | accept => exact absurd rfl hop
  | send =>
    obtain ⟨-, rfl⟩ := mem_sendFriendRequest.mp hw
    exact h.elim
  | ignore =>
    simp only [perform, ignoreFriendRequest] at hw
    split_ifs at hw
    · rcases List.mem_cons.mp hw with rfl | hw
      · exact ⟨rfl, removes_accept h⟩
      · exact absurd h (not_removes_saveUser hw)
    · cases hw
  | unfriend => exact absurd h (not_removes_unfriendUser hw)
  | block =>
    simp only [perform, blockUser_eq] at hw
    rcases List.mem_append.mp hw with hw | hw
    · exact absurd h (not_removes_unfriendUser hw)
    · exact absurd h (not_removes_saveUser hw)

theorem caused_accept (hop : k.op = .accept) :
    Caused k (acceptFriendRequest k.user k.currentUser) :=
  ⟨fun _ _ h => h.elim, fun _ _ h => ⟨Or.inl hop, removes_accept h⟩⟩

variable (hm : ∀ q ∈ k.currentUser.friendRequests, q.receivingUser = k.currentUser.uuid)
  (ho : k.user.friendRequests = [])
include hm ho

theorem caused_perform (hop : k.op ≠ .accept) (hw : w ∈ (perform k.currentUser k.user k.op).writes) :
    Caused k w := by
  refine ⟨fun r x h => ?_, fun r x h => ?_⟩
  · obtain hsend | ⟨hr, -, hx⟩ := restores_perform hm ho hop hw h
    · exact Or.inl hsend
    · exact Or.inr ⟨hr, kept_subset _ _ _ hx⟩
  · obtain ⟨hignore, hx, hr⟩ := removes_perform hop hw h
    exact ⟨Or.inr hignore, hx, hr⟩

theorem caused_acceptDeleted {err : Bool} (hw : w ∈ (acceptDeleted k.user k.currentUser err).writes) :
    Caused k w := by
  refine ⟨fun r x h => ?_, fun r x h => absurd h (not_removes_acceptDeleted hw)⟩
  obtain ⟨-, hr, -, hx⟩ := restores_acceptDeleted hm ho hw h
  exact Or.inr ⟨hr, kept_subset _ _ _ hx⟩

end Operations

/-! ### Steps -/

theorem requestKept_cons {e : Event} {log : List Event} {x r : String} :
    RequestKept (e :: log) x r ↔ (∃ k w, e = .stored k w ∧ Restores r x w) ∨
      (∀ k w, e = .stored k w → ¬ Removes r x w) ∧ RequestKept log x r := by
  constructor
  · rintro ⟨later, k, w, earlier, hlog, hw, hlater⟩
    cases later with
    | nil =>
      obtain ⟨rfl, rfl⟩ := List.cons_eq_cons.mp hlog
      exact Or.inl ⟨k, w, rfl, hw⟩
    | cons e' later =>
      obtain ⟨rfl, rfl⟩ := List.cons_eq_cons.mp hlog
      refine Or.inr ⟨fun k' w' he => ?_, later, k, w, earlier, rfl, hw, fun k' w' h => ?_⟩
      · exact hlater k' w' (he ▸ List.mem_cons_self)
      · exact hlater k' w' (List.mem_cons_of_mem _ h)
  · rintro (⟨k, w, rfl, hw⟩ | ⟨he, later, k, w, earlier, rfl, hw, hlater⟩)
    · exact ⟨[], k, w, log, rfl, hw, fun _ _ h => by cases h⟩
    · refine ⟨e :: later, k, w, earlier, rfl, hw, fun k' w' h => ?_⟩
      rcases List.mem_cons.mp h with rfl | h
      · exact he k' w' rfl
      · exact hlater k' w' h

/-- The document of a request after a write. -/
theorem present_apply {st : Store} {w : Write} {r x : String} :
    ((st.apply w).friendRequests r).get? (requestTitle x r) ≠ none ↔ Restores r x w ∨
      ¬ Removes r x w ∧ (st.friendRequests r).get? (requestTitle x r) ≠ none := by
  cases w with
  | setUser uuid dict => simp [Restores, Removes, Store.apply]
  | setRequest receiver title dict =>
    rw [Store.apply_setRequest_get?]
    by_cases hk : r = receiver ∧ requestTitle x r = title
    · have hrestores : Restores r x (.setRequest receiver title dict) := ⟨hk.1.symm, hk.2.symm⟩
      simp [if_pos hk, hrestores]
    · have hrestores : ¬ Restores r x (.setRequest receiver title dict) :=
        fun h => hk ⟨h.1.symm, h.2.symm⟩
      simp [if_neg hk, hrestores, Removes]
  | deleteRequest receiver title =>
    rw [Store.apply_deleteRequest_get?]
    by_cases hk : r = receiver ∧ requestTitle x r = title
    · have hremoves : Removes r x (.deleteRequest receiver title) := ⟨hk.1.symm, hk.2.symm⟩
      simp [if_pos hk, hremoves, Restores]
    · have hremoves : ¬ Removes r x (.deleteRequest receiver title) :=
        fun h => hk ⟨h.1.symm, h.2.symm⟩
      simp [if_neg hk, hremoves, Restores]

/-- What is known of the request documents and of the writes in the log. -/
structure RequestHistory (s : State) : Prop where
  kept : ∀ x r, ¬ Absent r s x ↔ RequestKept s.log x r
  stored : ∀ k w, .stored k w ∈ s.log → Caused k w

/-- The writes on their way have their cause too. -/
def AllCaused (s : State) : Prop := ∀ k w, .writing k w ∈ s.tasks → Caused k w

section Steps

variable {s s' : State} {a : Action}

theorem AllCaused.next (h : AllCaused s) (hs : AllSent s) (hn : Next s a s') : AllCaused s' := by
  intro k w hin
  have hreceived : ∀ {c m}, s.session c = some m →
      ∀ q ∈ m.friendRequests, q.receivingUser = m.uuid := by
    intro c m hm q hq
    exact (hs.session c m hm q hq).receivingUser
  rcases mem_tasks_next hn hin with hold | hadd
  · exact h k w hold
  cases hadd with
  | issued i err _ ht hm hop _ hw =>
    exact caused_perform (hreceived hm) (hs.bare _ (List.mem_of_getElem? ht)) hop hw
  | completed i err err' k₀ ht m hm _ hw =>
    exact caused_acceptDeleted (k := { k₀ with currentUser := m }) (hreceived hm)
      (hs.bare _ (List.mem_of_getElem? ht)) hw

/-- A write with its cause is stored, and the log says so. -/
theorem RequestHistory.write (h : RequestHistory s) {k : Call} {w : Write} (hw : Caused k w)
    (hstore : s'.store.friendRequests = (s.store.apply w).friendRequests)
    (hlog : s'.log = .stored k w :: s.log) : RequestHistory s' := by
  refine ⟨fun x r => ?_, fun k' w' hmem => ?_⟩
  · have hpresent : ¬ Absent r s' x ↔ Restores r x w ∨ ¬ Removes r x w ∧ ¬ Absent r s x := by
      unfold Absent
      rw [hstore]
      exact present_apply
    rw [hpresent, hlog, requestKept_cons, h.kept]
    simp
  · rw [hlog] at hmem
    rcases List.mem_cons.mp hmem with heq | hmem
    · cases heq
      exact hw
    · exact h.stored k' w' hmem

/-- Neither the collections nor the writes in the log change. -/
theorem RequestHistory.idle (h : RequestHistory s)
    (hstore : s'.store.friendRequests = s.store.friendRequests)
    (hlog : s'.log = s.log ∨ ∃ e, s'.log = e :: s.log ∧ ∀ k w, e ≠ .stored k w) :
    RequestHistory s' := by
  have habsent : ∀ x r, Absent r s' x ↔ Absent r s x := fun x r => by
    unfold Absent
    rw [hstore]
  rcases hlog with hlog | ⟨e, hlog, he⟩
  · exact ⟨fun x r => by rw [habsent, hlog, h.kept], fun k w => hlog ▸ h.stored k w⟩
  · refine ⟨fun x r => ?_, fun k w hmem => ?_⟩
    · rw [habsent, hlog, requestKept_cons, h.kept]
      simp [he]
    · rw [hlog] at hmem
      rcases List.mem_cons.mp hmem with heq | hmem
      · exact absurd heq.symm (he k w)
      · exact h.stored k w hmem

theorem RequestHistory.next (h : RequestHistory s) (hi : AllIssued s) (hc : AllCaused s)
    (hn : Next s a s') : RequestHistory s' := by
  cases hn with
  | stored i k w ht => exact h.write (hc k w (List.mem_of_getElem? ht)) rfl rfl
  | deleteStored i k ht =>
    have hop : k.op = .accept := hi _ (List.mem_of_getElem? ht)
    exact h.write (caused_accept hop) rfl rfl
  | called i err k ht hm =>
    refine h.idle ?_ (Or.inr ⟨.called k, call_log _ k, by simp⟩)
    unfold State.call
    split_ifs <;> rfl
  | created i flow username uid ht hu =>
    exact h.idle rfl (Or.inr ⟨.created flow uid, rfl, by simp⟩)
  | enrollFailed i flow u ht => exact h.idle rfl (Or.inr ⟨.completed flow u.uuid, rfl, by simp⟩)
  | enrolled i flow u ht => exact h.idle rfl (Or.inr ⟨.completed flow u.uuid, rfl, by simp⟩)
  | _ => exact h.idle rfl (Or.inl rfl)

end Steps

/-- In every state of every run the requests that are stored are those whose last stored write
was a send or a save of them, and only their receiver's accept or ignore has deleted any. -/
theorem requestHistory_run {s : State} (hs : Unasked s) (hlog : s.log = []) (as : List Action) :
    Runs.Always step RequestHistory s as := by
  have hhistory : RequestHistory s := by
    refine ⟨fun x r => ?_, fun k w hmem => ?_⟩
    · have habsent : Absent r s x := by
        rw [Absent, hs.requests]
        rfl
      refine iff_of_false (not_not.mpr habsent) ?_
      rintro ⟨later, k, w, earlier, heq, -⟩
      rw [hlog] at heq
      simp at heq
    · rw [hlog] at hmem
      cases hmem
  have htasks : AllCaused s ∧ AllIssued s := by
    refine ⟨fun k w hin => ?_, fun t ht => ?_⟩
    · rw [hs.tasks] at hin
      cases hin
    · rw [hs.tasks] at ht
      cases ht
  refine (Runs.always_of_invariant
    (I := fun s => RequestHistory s ∧ AllCaused s ∧ AllIssued s ∧ AllSent s)
    (fun s a h => ?_) ⟨hhistory, htasks.1, htasks.2, hs.allSent⟩ as).mono fun s h => h.1
  have hn := next_step s a
  obtain ⟨hhistory, hcaused, hissued, hsent⟩ := h
  exact ⟨hhistory.next hissued hcaused hn, hcaused.next hsent hn, hissued.next hn, hsent.step a⟩

end

open PlainKit

/-- After two requests of Ann and one of Cat, Bob accepts Ann's, which saves Cat's again. -/
def acceptedOne : List Action := List.flatten [sentTwice, [.addFwen 1 0], advances 0 7]

theorem requestHistory_run_acceptedOne :
    ((Runs.run step abc acceptedOne).store.friendRequests "b").entries.map Prod.fst = ["c to b"] ∧
      Runs.Always step RequestHistory abc acceptedOne :=
  ⟨by decide +kernel, requestHistory_run ⟨fun _ => rfl, fun _ => rfl, rfl⟩ rfl acceptedOne⟩

end JamSession.Interleaved
