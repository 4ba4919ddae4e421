import JamSession.Interleaved.Provenance
import JamSession.Firestore.PlainKit

/-! No friendship without consent. A call accounts for what it writes when the two objects it
works on are accounted for and, for an accept, when the request was sent before. The requests
that a send, a save or a load moves between the store and the memories keep their sender. -/

namespace JamSession.Interleaved

open UserController JamSession.Sequential

section

variable [UIKit] {s s' : State} {m o u : User}

/-! ### The objects and writes of a call -/

theorem Accounted.of_changed {u' : User} (h : Accounted s u) (huuid : u'.uuid = u.uuid)
    (hname : u'.username = u.username)
    (hf : ∀ n ∈ u'.friends, n ∈ u.friends ∨ Befriended s u.uuid n)
    (hr : ∀ r ∈ u'.friendRequests, r ∈ u.friendRequests ∨ RequestTo s.log u.uuid r) :
    Accounted s u' where
  username := by rw [huuid, hname, h.username]
  friends n hn := by
    rw [huuid]
    exact (hf n hn).elim (h.friends n) id
  requests r hr' := by
    rw [huuid]
    exact (hr r hr').elim (h.requests r) id

theorem Accounted.removeFriend (h : Accounted s u) (n : String) : Accounted s (u.removeFriend n) :=
  h.of_changed rfl rfl (fun _ hx => Or.inl (List.mem_of_mem_erase hx)) fun _ hr => Or.inl hr

theorem Accounted.addFriend (h : Accounted s u) {n : String} (hn : Befriended s u.uuid n) :
    Accounted s (u.addFriend n) := by
  refine h.of_changed rfl rfl (fun x hx => ?_) fun _ hr => Or.inl hr
  rcases List.mem_append.mp hx with hx | hx
  · exact Or.inl hx
  · exact Or.inr (List.mem_singleton.mp hx ▸ hn)

theorem Accounted.addBlocked (h : Accounted s u) (n : String) : Accounted s (u.addBlocked n) :=
  h.of_changed rfl rfl (fun _ hx => Or.inl hx) fun _ hr => Or.inl hr

theorem Accounted.removeRequest (h : Accounted s u) (r : FriendRequest) :
    Accounted s (u.removeRequest r) :=
  h.of_changed rfl rfl (fun _ hx => Or.inl hx) fun _ hr => Or.inl (List.mem_of_mem_erase hr)

theorem Accounted.addRequests (h : Accounted s u) {rs : List FriendRequest}
    (hrs : ∀ r ∈ rs, RequestTo s.log u.uuid r) : Accounted s (u.addRequests rs) := by
  refine h.of_changed rfl rfl (fun _ hx => Or.inl hx) fun r hr => ?_
  exact (List.mem_append.mp hr).imp id (hrs r)

/-- The user of a session after a call, and the writes of the call. -/
structure OutcomeAccounted (s : State) (m : User) (out : Outcome) : Prop where
  currentUser : Accounted s out.currentUser
  uuid : out.currentUser.uuid = m.uuid
  writes : ∀ w ∈ out.writes, WriteAccounted s w

theorem saveUser_accounted (hs : s.store.Coherent s.accounts) (h : Accounted s u) :
    ∀ w ∈ saveUser u, WriteAccounted s w := by
  intro w hw
  rcases List.mem_cons.mp hw with rfl | hw
  · exact ⟨u, rfl, rfl, hs.username h.username, h.friends⟩
  · obtain ⟨r, hr, rfl⟩ := List.mem_map.mp hw
    have hreq := h.requests r hr
    exact ⟨r, rfl, by rw [hreq.receivingUser], hreq⟩

section Call

variable (hs : s.store.Coherent s.accounts) (hm : Accounted s m) (ho : Accounted s o)
include hs hm ho

omit ho in
theorem ignoreFriendRequest_accounted : OutcomeAccounted s m (ignoreFriendRequest o m) := by
  by_cases hr : ⟨o.uuid, m.uuid⟩ ∈ m.friendRequests
  · rw [ignoreFriendRequest_pending hr]
    have hm' := hm.removeRequest ⟨o.uuid, m.uuid⟩
    refine ⟨hm', rfl, fun w hw => ?_⟩
    rcases List.mem_cons.mp hw with rfl | hw
    · trivial
    · exact saveUser_accounted hs hm' w hw
  · rw [ignoreFriendRequest_missing hr]
    exact ⟨hm, rfl, by simp⟩

theorem unfriendUser_accounted : OutcomeAccounted s m (unfriendUser m o) := by
  have hm' := hm.removeFriend o.username
  by_cases hf : o.username ∈ m.friends
  · by_cases hf' : m.username ∈ o.friends
    · rw [unfriendUser_mutual hf hf']
      refine ⟨hm', rfl, fun w hw => ?_⟩
      rcases List.mem_append.mp hw with hw | hw
      · exact saveUser_accounted hs (ho.removeFriend m.username) w hw
      · exact saveUser_accounted hs hm' w hw
    · rw [unfriendUser_oneSided hf hf']
      exact ⟨hm', rfl, by simp⟩
  · rw [unfriendUser_stranger hf]
    exact ⟨hm, rfl, by simp⟩

theorem blockUser_accounted : OutcomeAccounted s m (blockUser m o) := by
  have hu := unfriendUser_accounted hs hm ho
  rw [blockUser_eq]
  refine ⟨hu.currentUser.addBlocked _, hu.uuid, fun w hw => ?_⟩
  rcases List.mem_append.mp hw with hw | hw
  · exact hu.writes w hw
  · exact saveUser_accounted hs (hu.currentUser.addBlocked _) w hw

theorem acceptDeleted_accounted (hc : Consented s.log o.uuid m.uuid) (err : Bool) :
    OutcomeAccounted s m (acceptDeleted o m err) := by
  cases err with
  | true =>
    rw [acceptDeleted_err]
    exact ⟨hm, rfl, by simp⟩
  | false =>
    have hm' := hm.addFriend ⟨o.uuid, ho.username, Or.inr hc⟩
    have ho' := ho.addFriend ⟨m.uuid, hm.username, Or.inl hc⟩
    by_cases hf : o.username ∈ m.friends
    · rw [acceptDeleted_friend hf]
      exact ⟨hm, rfl, by simp⟩
    by_cases hr : ⟨o.uuid, m.uuid⟩ ∈ m.friendRequests
    · rw [acceptDeleted_pending hf hr]
      have hm'' := hm'.removeRequest ⟨o.uuid, m.uuid⟩
      refine ⟨hm'', rfl, fun w hw => ?_⟩
      rcases List.mem_append.mp hw with hw | hw
      · exact saveUser_accounted hs ho' w hw
      · exact saveUser_accounted hs hm'' w hw
    · rw [acceptDeleted_missing hf hr]
      exact ⟨hm', rfl, fun w hw => saveUser_accounted hs ho' w hw⟩

/-- The operations other than accept, whose request the log must know when they send one. -/
theorem perform_accounted {op : Operation} (hop : op ≠ .accept)
    (hsend : op = .send → o.username ∉ m.friends → Requested s.log m.uuid o.uuid) :
    OutcomeAccounted s m (perform m o op) := by
  cases op with
  | send =>
    refine ⟨hm, rfl, fun w hw => ?_⟩
    obtain ⟨hf, rfl⟩ := mem_sendFriendRequest.mp hw
    exact ⟨⟨m.uuid, o.uuid⟩, rfl, rfl, rfl, hsend rfl hf⟩
  | accept => exact absurd rfl hop
  | ignore => exact ignoreFriendRequest_accounted hs hm
  | unfriend => exact unfriendUser_accounted hs hm ho
  | block => exact blockUser_accounted hs hm ho

end Call

/-! ### Steps -/

/-- It is enough to account for what a step adds. -/
theorem Sound.extend (h : Sound s) (he : Extends s s')
    (hstore : s'.store = s.store ∨ ∃ w, s'.store = s.store.apply w ∧ WriteAccounted s' w)
    (hsession : ∀ c m, s'.session c = some m → s.session c = some m ∨ Accounted s' m)
    (htasks : ∀ t ∈ s'.tasks, t ∈ s.tasks ∨ TaskAccounted s' t) : Sound s' := by
  have hcoh : s.store.Coherent s'.accounts := fun k d hd => by
    obtain ⟨u, hu, hk, hn⟩ := h.coherent k d hd
    exact ⟨u, hu, hk, he.accounts _ _ hn⟩
  have hfriends : ∀ k n, n ∈ s.store.friends k → Befriended s' k n := fun k n hn =>
    (h.friends k n hn).mono he
  have hrequests : ∀ receiver title d, (s.store.friendRequests receiver).get? title = some d →
      WriteAccounted s' (.setRequest receiver title d) := fun receiver title d hd =>
    (h.requests receiver title d hd).mono he
  refine ⟨?_, ?_, ?_, fun c m hm => ?_, fun t ht => ?_⟩
  · obtain heq | ⟨w, heq, hw⟩ := hstore
    · rw [heq]
      exact hcoh
    · rw [heq]
      refine hcoh.apply ?_
      cases w with
      | setUser uuid dict =>
        obtain ⟨u, hd, hu, hk, -⟩ := hw
        exact ⟨u, hd, hu, hk⟩
      | setRequest receiver title dict => trivial
      | deleteRequest receiver title => trivial
  · obtain heq | ⟨w, heq, hw⟩ := hstore
    · rw [heq]
      exact hfriends
    · rw [heq]
      intro k n hn
      cases w with
      | setUser uuid dict =>
        obtain ⟨u, rfl, rfl, -, hf⟩ := hw
        rw [Store.apply_setUser_friends] at hn
        split_ifs at hn with hk
        · exact hk ▸ hf n hn
        · exact hfriends k n hn
      | setRequest receiver title dict => exact hfriends k n hn
      | deleteRequest receiver title => exact hfriends k n hn
  · obtain heq | ⟨w, heq, hw⟩ := hstore
    · rw [heq]
      exact hrequests
    · rw [heq]
      intro receiver title d hd
      rcases s.store.request_of_apply hd with hold | rfl
      · exact hrequests receiver title d hold
      · exact hw
  · exact (hsession c m hm).elim (fun hm' => (h.session c m hm').mono he) id
  · exact (htasks t ht).elim (fun ht' => (h.tasks t ht').mono he) id

/-- A lookup finds accounted users. -/
theorem Sound.fetched (h : Sound s) {q : Query} (ho : q.answer s.store.users = .ok o) :
    Accounted s o := by
  have hf := h.coherent.fetched ho
  refine ⟨hf.username, fun n hn => h.friends _ _ (hf.friends ▸ hn), ?_⟩
  rw [hf.friendRequests]
  simp

/-! The parts of a step. -/

theorem Sound.setTasks (h : Sound s) {ts : List Task} (n : ℕ)
    (hts : ∀ t ∈ ts, t ∈ s.tasks ∨ TaskAccounted s t) :
    Sound { s with tasks := ts, next := n } :=
  have hext := Extends.tasks s ts n
  h.extend hext (Or.inl rfl) (fun _ _ hm => Or.inl hm) fun t ht =>
    (hts t ht).imp id (TaskAccounted.mono hext)

theorem Sound.drop (h : Sound s) (i : ℕ) : Sound (s.drop i) :=
  h.setTasks s.next fun _ ht => Or.inl (mem_of_mem_drop ht)

theorem Sound.add (h : Sound s) {t : Task} (ht : TaskAccounted s t) : Sound (s.add t) := by
  refine h.setTasks s.next fun t' ht' => ?_
  rcases List.mem_append.mp ht' with ht' | ht'
  · exact Or.inl ht'
  · exact Or.inr (List.mem_singleton.mp ht' ▸ ht)

theorem Sound.start (h : Sound s) {t : ℕ → Task} (ht : TaskAccounted s (t s.next)) :
    Sound (s.start t) := by
  refine h.setTasks (s.next + 1) fun t' ht' => ?_
  rcases List.mem_append.mp ht' with ht' | ht'
  · exact Or.inl ht'
  · exact Or.inr (List.mem_singleton.mp ht' ▸ ht)

theorem Sound.record (h : Sound s) (e : Event) : Sound (s.record e) :=
  h.extend (Extends.record s e) (Or.inl rfl) (fun _ _ hm => Or.inl hm) fun _ ht => Or.inl ht

theorem Sound.assign (h : Sound s) {c : ℕ} (hu : Accounted s u)
    (hc : ∀ m, s.session c = some m → m.uuid = u.uuid) : Sound (s.assign c u) := by
  have hext := Extends.assign hc
  refine h.extend hext (Or.inl rfl) (fun c' m hm => ?_) fun _ ht => Or.inl ht
  rw [session_assign] at hm
  split_ifs at hm
  · exact Or.inr (Option.some.inj hm ▸ hu.mono hext)
  · exact Or.inl hm

theorem WriteAccounted.names {w : Write} (hw : WriteAccounted s w) : w.Names s.accounts := by
  cases w with
  | setUser uuid dict =>
    obtain ⟨u, hd, hu, hk, -⟩ := hw
    exact ⟨u, hd, hu, hk⟩
  | setRequest receiver title dict => trivial
  | deleteRequest receiver title => trivial

theorem Sound.write (h : Sound s) {w : Write} (hw : WriteAccounted s w) : Sound (s.write w) :=
  have hext := Extends.write h.coherent hw.names
  h.extend hext (Or.inr ⟨w, rfl, hw.mono hext⟩) (fun _ _ hm => Or.inl hm) fun _ ht => Or.inl ht

theorem Sound.issue (h : Sound s) {k : Call} {out : Outcome} (hm : s.session k.client = some m)
    (hout : OutcomeAccounted s m out) : Sound (s.issue k out) := by
  have hc : ∀ m', s.session k.client = some m' → m'.uuid = out.currentUser.uuid := fun m' hm' => by
    rw [hout.uuid, Option.some.inj (hm'.symm.trans hm)]
  refine (h.assign hout.currentUser hc).setTasks s.next fun t ht => ?_
  rcases List.mem_append.mp ht with ht | ht
  · exact Or.inl ht
  · obtain ⟨w, hw, rfl⟩ := List.mem_map.mp ht
    exact Or.inr ((hout.writes w hw).mono (Extends.assign hc))

/-- A call of an operation; an accept is of a request that was sent to the client's user. -/
theorem Sound.call (h : Sound s) {k : Call} (hm : s.session k.client = some k.currentUser)
    (ho : Accounted s k.user) (hk : k.op = .accept → ∃ uuid, LoggedIn s k.client uuid ∧
      Requested s.log k.user.uuid uuid) : Sound (s.call k) := by
  have hs' := h.record (.called k)
  have ho' := ho.mono (Extends.record s (.called k))
  unfold State.call
  split_ifs with hop
  · obtain ⟨uuid, ⟨m, hm', rfl⟩, hreq⟩ := hk hop
    rw [hm, Option.some.injEq] at hm'
    subst hm'
    exact hs'.add ⟨ho', ⟨_, hm, rfl⟩, k, s.log, List.suffix_rfl, hop, rfl, rfl, hreq⟩
  · refine hs'.issue hm (perform_accounted hs'.coherent (hs'.session _ _ hm) ho' hop fun hsend hf => ?_)
    exact ⟨k, List.mem_cons_self, hsend, rfl, rfl, hf⟩

theorem Sound.next {a : Action} (h : Sound s) (hn : Next s a s') : Sound s' := by
  cases hn with
  | stay hs => exact h
  | lookup ha c p q hp => exact h.start fun hp' => absurd hp' hp
  | tapped ha c m r hm hr =>
    have hreq := (h.session c m hm).requests r hr
    exact h.start fun _ => ⟨_, m.uuid, rfl, ⟨m, hm, rfl⟩, hreq.requested⟩
  | load ha c m hm => exact h.start ⟨m, hm, rfl⟩
  | ended i err t ht he => exact h.drop i
  | answer i err flow c p q ht result hr =>
    have htask := h.tasks _ (List.mem_of_getElem? ht)
    refine (h.drop i).add fun o ho => ?_
    refine ⟨(h.fetched (hr o ho)).mono (Extends.tasks s _ _), fun hp => ?_⟩
    obtain ⟨a, uuid, rfl, hc, hreq⟩ := htask hp
    exact ⟨uuid, hc, h.coherent.answer_uuid (hr o ho) ▸ hreq⟩
  | free i err flow c username result ht hr => exact (h.drop i).add trivial
  | loggedIn i err flow c u ht hc =>
    have hu := (h.tasks _ (List.mem_of_getElem? ht) u rfl).1
    refine (h.drop i).assign (hu.mono (Extends.tasks s _ _)) fun m hm => ?_
    exact absurd (hm.symm.trans hc) (by simp)
  | checked i err flow c username result ht hr => exact (h.drop i).add fun hp => by simp at hp
  | called i err k ht hm =>
    obtain ⟨ho, hp⟩ := h.tasks _ (List.mem_of_getElem? ht) k.user rfl
    exact (h.drop i).call hm (ho.mono (Extends.tasks s _ _)) fun hop => hp (congrArg _ hop)
  | loadAnswer i err flow c uuid ht answer ha =>
    have hc := h.tasks _ (List.mem_of_getElem? ht)
    refine (h.drop i).add ⟨uuid, hc, fun ds hds d hd r hr => ?_⟩
    rw [ha ds hds] at hd
    obtain ⟨⟨title, d'⟩, hmem, rfl⟩ := List.mem_map.mp hd
    obtain ⟨r', rfl, -, hreq⟩ := h.requests uuid title d'
      ((OrderedMap.get?_eq_some_iff _).mpr hmem)
    rw [FriendRequest.fromStringAny_toFireObj, Option.some.injEq] at hr
    exact hr ▸ hreq
  | loaded i err flow c answer ht m hm =>
    obtain ⟨uuid, ⟨m', hm', rfl⟩, hds⟩ := h.tasks _ (List.mem_of_getElem? ht)
    rw [hm, Option.some.injEq] at hm'
    subst hm'
    have hacc := (h.drop i).session c m hm
    have huuid : ∀ m', (s.drop i).session c = some m' → m'.uuid = m.uuid := fun m' hm' => by
      rw [Option.some.inj (hm'.symm.trans hm)]
    cases answer with
    | none => exact (h.drop i).assign hacc huuid
    | some ds =>
      refine (h.drop i).assign (hacc.addRequests fun r hr => ?_) huuid
      obtain ⟨d, hd, hr⟩ := List.mem_filterMap.mp hr
      exact hds ds rfl d hd r hr
  | stored i k w ht =>
    have hw := h.tasks _ (List.mem_of_getElem? ht)
    exact ((h.drop i).write (hw.mono (Extends.tasks s _ _))).record _
  | deleteFailed i k ht =>
    have hk := h.tasks _ (List.mem_of_getElem? ht)
    exact (h.drop i).add (hk.mono (Extends.tasks s _ _))
  | deleteStored i k ht =>
    have hk := h.tasks _ (List.mem_of_getElem? ht)
    have hw := (h.drop i).write (w := acceptFriendRequest k.user k.currentUser) trivial
    refine (hw.record _).add (hk.mono ((Extends.tasks s _ _).trans
      ((Extends.write (h.drop i).coherent ?_).trans (Extends.record _ _))))
    trivial
  | completed i err err' k ht m hm =>
    obtain ⟨ho, ⟨m', hm', huuid⟩, hc⟩ := h.tasks _ (List.mem_of_getElem? ht)
    rw [hm, Option.some.injEq] at hm'
    subst hm'
    have hs' := h.drop i
    refine hs'.issue (m := m) hm (acceptDeleted_accounted hs'.coherent (hs'.session _ _ hm)
      (ho.mono (Extends.tasks s _ _)) ?_ err')
    rw [huuid]
    exact hc
  | created i flow username uid ht hu =>
    refine (h.drop i).extend (Extends.enrol flow username hu) (Or.inl rfl)
      (fun _ _ hm => Or.inl hm) fun t ht => ?_
    rcases List.mem_append.mp ht with ht | ht
    · exact Or.inl ht
    · rw [List.mem_singleton.mp ht]
      exact Or.inr ⟨by simp [User.Known, State.enrol, makeUserInDB, User.init], rfl⟩
  | enrollFailed i flow u ht => exact (h.drop i).record _
  | enrolled i flow u ht =>
    obtain ⟨hk, hf⟩ := h.tasks _ (List.mem_of_getElem? ht)
    refine ((h.drop i).write (w := .setUser u.uuid u.toFireObj) ⟨u, rfl, rfl, hk, ?_⟩).record _
    simp [hf]

theorem Initial.sound (h : Initial s) : Sound s where
  coherent k d hd := by
    obtain ⟨u, hu, rfl, hn, -⟩ := h.docs k d hd
    exact ⟨u, hu, rfl, hn⟩
  friends k n hn := by
    cases hd : s.store.users.get? k with
    | none => simp [Store.friends, hd] at hn
    | some d =>
      obtain ⟨u, rfl, -, -, hf⟩ := h.docs k d hd
      simp [Store.friends_of_get? hd, hf] at hn
  requests receiver title d hd := by
    rw [h.requests] at hd
    cases hd
  session c m hm := by
    rw [h.session] at hm
    cases hm
  tasks t ht := by
    rw [h.tasks] at ht
    cases ht

/-! ### Friendship by consent -/

/-- The users that a task holds in memory. -/
def Task.copies : Task → List User
  | .answered _ _ _ (.ok u) => [u]
  | .deleting k | .deleted k _ => [k.user]
  | .enrolling _ u => [u]
  | _ => []

/-- Every name in a friends list, in a document, a session or a fetched copy of a user, is of
a user whom that user befriended by consent. -/
structure FriendsByConsent (s : State) : Prop where
  stored : ∀ u n, n ∈ s.store.friends u → Befriended s u n
  session : ∀ c m n, s.session c = some m → n ∈ m.friends → Befriended s m.uuid n
  copies : ∀ t ∈ s.tasks, ∀ u ∈ t.copies, ∀ n ∈ u.friends, Befriended s u.uuid n

theorem Sound.friendsByConsent (h : Sound s) : FriendsByConsent s where
  stored := h.friends
  session c m n hm := (h.session c m hm).friends n
  copies t ht u hu n hn := by
    have htask := h.tasks t ht
    cases t with
    | answered flow c p result =>
      cases result with
      | error e => cases hu
      | ok v =>
        rw [Task.copies, List.mem_singleton] at hu
        exact hu ▸ (htask v rfl).1.friends n (hu ▸ hn)
    | deleting k =>
      rw [Task.copies, List.mem_singleton] at hu
      exact hu ▸ htask.user.friends n (hu ▸ hn)
    | deleted k err =>
      rw [Task.copies, List.mem_singleton] at hu
      exact hu ▸ htask.user.friends n (hu ▸ hn)
    | enrolling flow v =>
      rw [Task.copies, List.mem_singleton] at hu
      subst hu
      rw [htask.2] at hn
      cases hn
    | asked flow c p q => cases hu
    | loading flow c uuid => cases hu
    | loaded flow c answer => cases hu
    | writing k w => cases hu
    | creating flow username => cases hu

/-- No friendship without consent of both sides, in any state of any run. -/
theorem friendsByConsent_run {s : State} (hs : Initial s) (as : List Action) :
    FriendsByConsent (Runs.run step s as) :=
  (Runs.invariant (I := Sound) (fun s a h => h.next (next_step s a)) hs.sound as).friendsByConsent

end

open PlainKit

/-- Ann sends Bob a request; his client loads it and accepts it. Each flow is advanced until
its callbacks have run and its writes are stored. -/
def acceptedRequest : List Action := List.flatten [
  [.logIn 0 "a", .logIn 1 "b"], advances 0 4,
  [.addUserButtonPressed 0 "bob"], advances 0 5, [.load 1], advances 0 2,
  [.addFwen 1 0], advances 0 6]

theorem friendsByConsent_run_acceptedRequest :
    let s := Runs.run step (signedUp [("a", "ann"), ("b", "bob")]) acceptedRequest
    s.store.friends "a" = ["bob"] ∧ s.store.friends "b" = ["ann"] ∧ FriendsByConsent s :=
  ⟨by decide, by decide, friendsByConsent_run (initial_signedUp _) acceptedRequest⟩

end JamSession.Interleaved
