import JamSession.Firestore.PlainKit
import JamSession.Interleaved.Restoring

/-! Request documents are keyed by their content. Three functions write them and two delete
them, each making the key again from user objects or from requests in memory, which were read
from documents before. So the collections, the memories, the answers and the writes on their
way keep one invariant together: a request is held for its receiver alone, under the key of
its two users, and was sent. Nothing is asked of the `Users` collection. -/

namespace JamSession.Interleaved

open UserController JamSession.Sequential

section

variable [UIKit]

/-! ### Keyed by content -/

/-- The delete that `acceptFriendRequest` or `ignoreFriendRequest` issues for two users. -/
def Deletes (o m : User) (w : Write) : Prop :=
  w = acceptFriendRequest o m ∨
    w ∈ (ignoreFriendRequest o m).writes ∧ ∃ receiver title, w = .deleteRequest receiver title

/-- Every document is the one of a request to its collection's owner, which was sent, under
the key of that request; a collection has one document a sender, a write leaves those of the
other senders as they are, and the deletes take away the document of their pair. -/
structure KeyedByContent (s : State) : Prop where
  content : ∀ receiver title d, (s.store.friendRequests receiver).get? title = some d →
    ∃ r, FriendRequest.fromStringAny d = some r ∧ r.receivingUser = receiver ∧
      title = requestTitle r.initialUser r.receivingUser ∧ Requested s.log r.initialUser receiver
  senders : ∀ receiver, (((s.store.friendRequests receiver).entries.filterMap fun e =>
    FriendRequest.fromStringAny e.2).map FriendRequest.initialUser).Nodup
  others : ∀ k receiver title d, .writing k (.setRequest receiver title d) ∈ s.tasks →
    ∃ r, FriendRequest.fromStringAny d = some r ∧ ∀ title' d' r',
      (s.store.friendRequests receiver).get? title' = some d' →
      FriendRequest.fromStringAny d' = some r' → r'.initialUser ≠ r.initialUser →
      ((s.store.apply (.setRequest receiver title d)).friendRequests receiver).get? title' = some d'
  deletes : ∀ o m w, Deletes o m w → ∀ receiver title d,
    ((s.store.apply w).friendRequests receiver).get? title = some d ↔
      (s.store.friendRequests receiver).get? title = some d ∧
        FriendRequest.fromStringAny d ≠ some ⟨o.uuid, m.uuid⟩

/-- A state before any request: the collections are empty, nobody is logged in and nothing is
under way. -/
structure Unasked (s : State) : Prop where
  requests : ∀ receiver, s.store.friendRequests receiver = ∅
  session : ∀ c, s.session c = none
  tasks : s.tasks = []

/-! ### What an operation writes -/

/-- The document is of a request that `receiver` was sent, under its key. -/
def Sent (log : List Event) (receiver title : String) (dict : Dict) : Prop :=
  ∃ r : FriendRequest, dict = r.toFireObj ∧ title = requestTitle r.initialUser receiver ∧
    RequestTo log receiver r

def WriteSent (log : List Event) : Write → Prop
  | .setRequest receiver title dict => Sent log receiver title dict
  | .setUser _ _ | .deleteRequest _ _ => True

/-- The requests in the memory of `u` were sent to `u`. -/
def Received (log : List Event) (u : User) : Prop :=
  ∀ r ∈ u.friendRequests, RequestTo log u.uuid r

section Operations

variable {log log' : List Event} {m o u : User} {w : Write}

theorem Sent.mono (h : log <:+ log') {receiver title : String} {dict : Dict}
    (hd : Sent log receiver title dict) : Sent log' receiver title dict := by
  obtain ⟨r, hr, ht, hto⟩ := hd
  exact ⟨r, hr, ht, hto.of_suffix h⟩

theorem WriteSent.mono (h : log <:+ log') (hw : WriteSent log w) : WriteSent log' w := by
  cases w with
  | setRequest receiver title dict => exact Sent.mono h hw
  | setUser uuid dict => trivial
  | deleteRequest receiver title => trivial

theorem Received.mono (h : log <:+ log') (hu : Received log u) : Received log' u := fun r hr =>
  (hu r hr).of_suffix h

theorem Received.of_bare (h : u.friendRequests = []) : Received log u := fun r hr => by
  rw [h] at hr
  cases hr

/-- An edit that adds no request. -/
theorem Received.of_subset (h : Received log m) (huuid : u.uuid = m.uuid)
    (hr : u.friendRequests ⊆ m.friendRequests) : Received log u := fun r hmem => by
  rw [huuid]
  exact h r (hr hmem)

theorem Received.addFriend (h : Received log m) (n : String) : Received log (m.addFriend n) := h

theorem Received.removeFriend (h : Received log m) (n : String) : Received log (m.removeFriend n) := h

theorem Received.addBlocked (h : Received log m) (n : String) : Received log (m.addBlocked n) := h

theorem Received.removeRequest (h : Received log m) (r : FriendRequest) :
    Received log (m.removeRequest r) :=
  h.of_subset rfl List.erase_subset

theorem saveUser_sent (h : Received log u) : ∀ w ∈ saveUser u, WriteSent log w := by
  intro w hw
  rcases List.mem_cons.mp hw with rfl | hw
  · trivial
  · obtain ⟨r, hr, rfl⟩ := List.mem_map.mp hw
    exact ⟨r, rfl, by rw [(h r hr).receivingUser], h r hr⟩

variable (hm : Received log m) (ho : Received log o)
include hm ho

theorem unfriendUser_sent : ∀ w ∈ (unfriendUser m o).writes, WriteSent log w := by
  intro w hw
  unfold unfriendUser at hw
  split_ifs at hw
  · rcases List.mem_append.mp hw with hw | hw
    · exact saveUser_sent (ho.removeFriend _) w hw
    · exact saveUser_sent (hm.removeFriend _) w hw
  · cases hw
  · cases hw

theorem acceptDeleted_sent (err : Bool) : ∀ w ∈ (acceptDeleted o m err).writes, WriteSent log w := by
  intro w hw
  simp only [acceptDeleted] at hw
  split_ifs at hw
  · cases hw
  · cases hw
  · rcases List.mem_append.mp hw with hw | hw
    · exact saveUser_sent (ho.addFriend _) w hw
    · exact saveUser_sent ((hm.addFriend _).removeRequest _) w hw
  · exact saveUser_sent (ho.addFriend _) w hw

/-- What a call writes was sent before, except for the request of a send. -/
theorem perform_sent {op : Operation} (hsend : op = .send → o.username ∉ m.friends →
    Requested log m.uuid o.uuid) : ∀ w ∈ (perform m o op).writes, WriteSent log w := by
  intro w hw
  cases op with
  | send =>
    obtain ⟨hf, rfl⟩ := mem_sendFriendRequest.mp hw
    exact ⟨⟨m.uuid, o.uuid⟩, rfl, rfl, rfl, hsend rfl hf⟩
  | accept =>
    rcases List.mem_cons.mp hw with rfl | hw
    · trivial
    · exact acceptDeleted_sent hm ho false w hw
  | ignore =>
    simp only [perform, ignoreFriendRequest] at hw
    split_ifs at hw
    · rcases List.mem_cons.mp hw with rfl | hw
      · trivial
      · exact saveUser_sent (hm.removeRequest _) w hw
    · cases hw
  | unfriend => exact unfriendUser_sent hm ho w hw
  | block =>
    simp only [perform, blockUser_eq] at hw
    rcases List.mem_append.mp hw with hw | hw
    · exact unfriendUser_sent hm ho w hw
    · have hm' : Received log (unfriendUser m o).currentUser :=
        hm.of_subset (unfriendUser_rest m o).1 fun r hr => unfriendUser_requests m o ▸ hr
      exact saveUser_sent (hm'.addBlocked _) w hw

end Operations

/-! ### Steps -/

def TaskSent (s : State) : Task → Prop
  | .loading _ c uuid => LoggedIn s c uuid
  | .loaded _ c answer => ∃ uuid, LoggedIn s c uuid ∧ ∀ ds, answer = some ds → ∀ d ∈ ds,
      ∀ r, FriendRequest.fromStringAny d = some r → RequestTo s.log uuid r
  | .writing _ w => WriteSent s.log w
  | _ => True

/-- Every request in the state was sent to the user it is held for. -/
structure AllSent (s : State) : Prop where
  documents : ∀ receiver title d, (s.store.friendRequests receiver).get? title = some d →
    Sent s.log receiver title d
  session : ∀ c m, s.session c = some m → Received s.log m
  tasks : ∀ t ∈ s.tasks, TaskSent s t
  bare : AllBare s

section Steps

variable {s s' : State} {a : Action}

theorem TaskSent.next (hn : Next s a s') {t : Task} (ht : TaskSent s t) : TaskSent s' t := by
  have hlog := log_next hn
  cases t with
  | loading flow c uuid => exact loggedIn_next hn ht
  | loaded flow c answer =>
    obtain ⟨uuid, hc, hds⟩ := ht
    exact ⟨uuid, loggedIn_next hn hc, fun ds hds' d hd r hr => (hds ds hds' d hd r hr).of_suffix hlog⟩
  | writing k w => exact WriteSent.mono hlog ht
  | _ => trivial

/-- What a write of a request that was sent, or a delete, leaves in the collections. -/
theorem AllSent.apply (h : AllSent s) {w : Write} (hw : WriteSent s.log w)
    {receiver title : String} {d : Dict}
    (hd : ((s.store.apply w).friendRequests receiver).get? title = some d) :
    Sent s.log receiver title d := by
  rcases s.store.request_of_apply hd with hold | rfl
  · exact h.documents receiver title d hold
  · exact hw

theorem AllSent.documents_next (h : AllSent s) (hn : Next s a s') {receiver title : String}
    {d : Dict} (hd : (s'.store.friendRequests receiver).get? title = some d) :
    Sent s'.log receiver title d := by
  refine Sent.mono (log_next hn) ?_
  obtain heq | ⟨i, k, w, -, ht, heq⟩ | ⟨i, k, -, ht, heq⟩ := friendRequests_next hn
  · exact h.documents receiver title d (heq ▸ hd)
  · exact h.apply (h.tasks _ (List.mem_of_getElem? ht)) (heq ▸ hd)
  · exact h.apply (w := acceptFriendRequest k.user k.currentUser) trivial (heq ▸ hd)

theorem AllSent.session_next (h : AllSent s) (hn : Next s a s') {c : ℕ} {m : User}
    (hm : s'.session c = some m) : Received s'.log m := by
  refine Received.mono (log_next hn) ?_
  obtain hold | hassigned := session_of_next hn hm
  · exact h.session c m hold
  cases hassigned with
  | loggedIn i err flow c u ht hc =>
    exact Received.of_bare (h.bare _ (List.mem_of_getElem? ht))
  | called i err k ht hk hop =>
    exact (h.session _ _ hk).of_subset (perform_identity _ _ _).1 (perform_requests_subset _ _ _)
  | loaded i err flow c answer ht m₀ hm₀ =>
    have hreceived := h.session c m₀ hm₀
    obtain ⟨uuid, ⟨m₁, hm₁, rfl⟩, hds⟩ := h.tasks _ (List.mem_of_getElem? ht)
    obtain rfl : m₁ = m₀ := Option.some.inj (hm₁.symm.trans hm₀)
    cases answer with
    | none => exact hreceived
    | some ds =>
      intro r hr
      rcases List.mem_append.mp hr with hr | hr
      · exact hreceived r hr
      · obtain ⟨d, hd, hr⟩ := List.mem_filterMap.mp hr
        exact hds ds rfl d hd r hr
  | completed i err err' k ht m₀ hm₀ =>
    exact (h.session _ _ hm₀).of_subset (acceptDeleted_identity _ _ _).1
      (acceptDeleted_requests_subset _ _ _)

/-- A call adds its send to the log before the write of the request is on its way. -/
theorem AllSent.tasks_step (h : AllSent s) (a : Action) : ∀ t ∈ (step s a).tasks,
    TaskSent (step s a) t := by
  have hn := next_step s a
  have hlog := log_next hn
  intro t hin
  rcases mem_tasks_next hn hin with hold | hadd
  · exact (h.tasks t hold).next hn
  cases hadd with
  | loading flow c m hm => exact loggedIn_next hn ⟨m, hm, rfl⟩
  | loaded i err flow c uuid ht answer ha he =>
    have hc : LoggedIn s c uuid := h.tasks _ (List.mem_of_getElem? ht)
    refine ⟨uuid, loggedIn_next hn hc, fun ds hds d hd r hr => ?_⟩
    rw [ha ds hds] at hd
    obtain ⟨⟨title, d'⟩, hmem, rfl⟩ := List.mem_map.mp hd
    obtain ⟨r', rfl, -, hto⟩ := h.documents uuid title d' ((OrderedMap.get?_eq_some_iff _).mpr hmem)
    rw [FriendRequest.fromStringAny_toFireObj, Option.some.injEq] at hr
    exact hr ▸ hto.of_suffix hlog
  | issued i err k ht hm hop w hw =>
    have ho : Received s.log k.user := Received.of_bare (h.bare _ (List.mem_of_getElem? ht))
    refine perform_sent ((h.session _ _ hm).mono hlog) (ho.mono hlog) (fun hsend hf => ?_) w hw
    refine ⟨k, ?_, hsend, rfl, rfl, hf⟩
    rw [step_calls ht hm, call_log]
    exact List.mem_cons_self
  | completed i err err' k ht m hm w hw =>
    have ho : Received s.log k.user := Received.of_bare (h.bare _ (List.mem_of_getElem? ht))
    exact acceptDeleted_sent ((h.session _ _ hm).mono hlog) (ho.mono hlog) err' w hw
  | _ => trivial

theorem AllSent.step (h : AllSent s) (a : Action) : AllSent (step s a) where
  documents _ _ _ := h.documents_next (next_step s a)
  session _ _ := h.session_next (next_step s a)
  tasks := h.tasks_step a
  bare := h.bare.next (next_step s a)

end Steps

/-! ### Keys and their documents -/

section Keyed

variable {s : State}

/-- A document of a sender is under the key of that sender. -/
theorem AllSent.title_eq (h : AllSent s) {receiver title : String} {d : Dict} {r : FriendRequest}
    (hd : (s.store.friendRequests receiver).get? title = some d)
    (hr : FriendRequest.fromStringAny d = some r) : title = requestTitle r.initialUser receiver := by
  obtain ⟨r', rfl, ht, -⟩ := h.documents receiver title d hd
  rw [FriendRequest.fromStringAny_toFireObj, Option.some.injEq] at hr
  rw [ht, hr]

theorem AllSent.senders (h : AllSent s) (receiver : String) :
    (((s.store.friendRequests receiver).entries.filterMap fun e =>
      FriendRequest.fromStringAny e.2).map FriendRequest.initialUser).Nodup := by
  have hkeys : (s.store.friendRequests receiver).entries.Pairwise fun d e => d.1 ≠ e.1 :=
    (s.store.friendRequests receiver).sorted.imp fun hlt => ne_of_lt hlt
  rw [List.map_filterMap, List.Nodup, List.pairwise_filterMap]
  refine List.Pairwise.imp_of_mem ?_ hkeys
  rintro ⟨title, d⟩ ⟨title', d'⟩ hd hd' hne a ha b hb rfl
  obtain ⟨r, hr, rfl⟩ := Option.map_eq_some_iff.mp ha
  obtain ⟨r', hr', heq⟩ := Option.map_eq_some_iff.mp hb
  have ht := h.title_eq ((OrderedMap.get?_eq_some_iff _).mpr hd) hr
  have ht' := h.title_eq ((OrderedMap.get?_eq_some_iff _).mpr hd') hr'
  exact hne (by rw [ht, ht', heq])

theorem AllSent.others (h : AllSent s) {receiver title : String} {d : Dict}
    (hw : Sent s.log receiver title d) : ∃ r, FriendRequest.fromStringAny d = some r ∧
      ∀ title' d' r', (s.store.friendRequests receiver).get? title' = some d' →
        FriendRequest.fromStringAny d' = some r' → r'.initialUser ≠ r.initialUser →
        ((s.store.apply (.setRequest receiver title d)).friendRequests receiver).get? title' =
          some d' := by
  obtain ⟨r, rfl, rfl, -⟩ := hw
  refine ⟨r, FriendRequest.fromStringAny_toFireObj r, fun title' d' r' hd' hr' hne => ?_⟩
  have hkey : title' ≠ requestTitle r.initialUser receiver := fun he =>
    hne (requestTitle_inj.mp ((h.title_eq hd' hr').symm.trans he))
  rw [Store.apply_setRequest_get?, if_neg fun hk => hkey hk.2, hd']

/-- The delete of `ignoreFriendRequest` is the one of `acceptFriendRequest`. -/
theorem Deletes.eq {o m : User} {w : Write} (h : Deletes o m w) : w = acceptFriendRequest o m := by
  obtain h | ⟨hw, receiver, title, rfl⟩ := h
  · exact h
  by_cases hr : ⟨o.uuid, m.uuid⟩ ∈ m.friendRequests
  · rw [ignoreFriendRequest_pending hr] at hw
    rcases List.mem_cons.mp hw with hw | hw
    · exact hw
    · simp [saveData, saveRequests] at hw
  · simp [ignoreFriendRequest_missing hr] at hw

theorem AllSent.deletes (h : AllSent s) (o m : User) (receiver title : String) (d : Dict) :
    ((s.store.apply (acceptFriendRequest o m)).friendRequests receiver).get? title = some d ↔
      (s.store.friendRequests receiver).get? title = some d ∧
        FriendRequest.fromStringAny d ≠ some ⟨o.uuid, m.uuid⟩ := by
  rw [acceptFriendRequest, Store.apply_deleteRequest_get?]
  constructor
  · intro hd
    split_ifs at hd with hk
    refine ⟨hd, fun hr => hk ?_⟩
    obtain ⟨r, rfl, ht, hto⟩ := h.documents receiver title d hd
    rw [FriendRequest.fromStringAny_toFireObj, Option.some.injEq] at hr
    subst hr
    obtain rfl : m.uuid = receiver := hto.receivingUser
    exact ⟨rfl, ht⟩
  · rintro ⟨hd, hne⟩
    rw [if_neg, hd]
    rintro ⟨rfl, rfl⟩
    obtain ⟨r, rfl, ht, hto⟩ := h.documents _ _ d hd
    refine hne ?_
    have hsender : o.uuid = r.initialUser := requestTitle_inj.mp ht
    rw [FriendRequest.fromStringAny_toFireObj, hsender, ← hto.receivingUser]

theorem AllSent.keyedByContent (h : AllSent s) : KeyedByContent s where
  content receiver title d hd := by
    obtain ⟨r, rfl, ht, hto⟩ := h.documents receiver title d hd
    exact ⟨r, FriendRequest.fromStringAny_toFireObj r, hto.receivingUser,
      by rw [ht, hto.receivingUser], hto.requested⟩
  senders := h.senders
  others k receiver title d hw := h.others (h.tasks _ hw)
  deletes o m w hw := hw.eq ▸ h.deletes o m

theorem Unasked.allSent (h : Unasked s) : AllSent s where
  documents receiver title d hd := by
    rw [h.requests] at hd
    cases hd
  session c m hm := by
    rw [h.session] at hm
    cases hm
  tasks t ht := by
    rw [h.tasks] at ht
    cases ht
  bare t ht := by
    rw [h.tasks] at ht
    cases ht

end Keyed

/-- In every state of every run the request documents are keyed by their content. -/
theorem keyedByContent_run {s : State} (hs : Unasked s) (as : List Action) :
    Runs.Always step KeyedByContent s as :=
  (Runs.always_of_invariant (I := AllSent) (fun _ a h => h.step a) hs.allSent as).mono
    fun _ h => h.keyedByContent

end

open PlainKit

/-- Ann sends Bob a request twice and Cat sends him one; his client loads the two documents and
blocks Cat, which saves both again. -/
def sentTwice : List Action := List.flatten [
  [.logIn 0 "a", .logIn 1 "b", .logIn 2 "c"], advances 0 6,
  [.addUserButtonPressed 0 "bob"], advances 0 5, [.addUserButtonPressed 0 "bob"], advances 0 5,
  [.addUserButtonPressed 2 "bob"], advances 0 5, [.load 1], advances 0 2,
  [.block 1 "cat"], advances 0 5]

theorem keyedByContent_run_sentTwice :
    ((Runs.run step abc sentTwice).store.friendRequests "b").entries.map Prod.fst =
        ["a to b", "c to b"] ∧
      Runs.Always step KeyedByContent abc sentTwice :=
  ⟨by decide +kernel, keyedByContent_run ⟨fun _ => rfl, fun _ => rfl, rfl⟩ sentTwice⟩

end JamSession.Interleaved
