import JamSession.Interleaved.Issued

/-! Who the documents and copies are of. A copy of a user is only ever made of a document, a
call writes a document back under the uuid and the username it was read with, and a sign-up
writes under a uid that no document has yet. So documents are never removed and keep their
names, and a session keeps its user. -/

namespace JamSession.Interleaved

open UserController JamSession.Sequential

variable [UIKit]

/-- The client is logged in as the user `uuid`. -/
def LoggedIn (s : State) (c : ℕ) (uuid : String) : Prop :=
  ∃ m, s.session c = some m ∧ m.uuid = uuid

/-! ### What a step leaves in place -/

/-- The log grew, documents and accounts kept their names and sessions their users. -/
structure Extends (s s' : State) : Prop where
  log : s.log <:+ s'.log
  accounts : ∀ k n, s.accounts k = some n → s'.accounts k = some n
  username : ∀ k n, s.store.username k = some n → s'.store.username k = some n
  session : ∀ c uuid, LoggedIn s c uuid → LoggedIn s' c uuid

section Extends

variable {s s' s'' : State}

theorem Extends.trans (h : Extends s s') (h' : Extends s' s'') : Extends s s'' where
  log := h.log.trans h'.log
  accounts k n hn := h'.accounts k n (h.accounts k n hn)
  username k n hn := h'.username k n (h.username k n hn)
  session c uuid hc := h'.session c uuid (h.session c uuid hc)

theorem Extends.tasks (s : State) (ts : List Task) (n : ℕ) :
    Extends s { s with tasks := ts, next := n } :=
  ⟨List.suffix_rfl, fun _ _ h => h, fun _ _ h => h, fun _ _ h => h⟩

theorem Extends.record (s : State) (e : Event) : Extends s (s.record e) :=
  ⟨List.suffix_cons e s.log, fun _ _ h => h, fun _ _ h => h, fun _ _ h => h⟩

theorem Extends.assign {c : ℕ} {u : User} (h : ∀ m, s.session c = some m → m.uuid = u.uuid) :
    Extends s (s.assign c u) := by
  refine ⟨List.suffix_rfl, fun _ _ h => h, fun _ _ h => h, ?_⟩
  rintro c' uuid ⟨m, hm, rfl⟩
  by_cases hc : c' = c
  · subst hc
    exact ⟨u, by simp [State.assign], (h m hm).symm⟩
  · exact ⟨m, by simpa [State.assign, hc] using hm, rfl⟩

theorem Extends.enrol (flow : ℕ) (username : String) {uid : String} (hu : s.accounts uid = none) :
    Extends s (s.enrol flow username uid) := by
  refine ⟨List.suffix_cons _ _, fun k n hk => ?_, fun _ _ h => h, fun _ _ h => h⟩
  have hne : k ≠ uid := fun he => by
    rw [he, hu] at hk
    cases hk
  simpa [State.enrol, Function.update_of_ne hne] using hk

theorem Extends.write (h : s.store.Coherent s.accounts) {w : Write} (hw : w.Names s.accounts) :
    Extends s (s.write w) := by
  refine ⟨List.suffix_rfl, fun _ _ h => h, fun k n hn => ?_, fun _ _ h => h⟩
  cases w with
  | setUser uuid dict =>
    obtain ⟨u, rfl, rfl, hu⟩ := hw
    simp only [State.write, Store.apply_setUser_username]
    split_ifs with hk
    · have := h.username hn
      rw [hk, hu] at this
      exact this
    · exact hn
  | setRequest receiver title dict => exact hn
  | deleteRequest receiver title => exact hn


end Extends

/-! ### Identities -/

/-- The user is stored, under its uuid and username. -/
def Documented (s : State) (u : User) : Prop := s.store.username u.uuid = some u.username

theorem Documented.mono {s s' : State} (h : Extends s s') {u : User} (hu : Documented s u) :
    Documented s' u :=
  h.username _ _ hu

def TaskIdentified (s : State) : Task → Prop
  | .answered _ _ _ (.ok u) => Documented s u
  | .deleting k | .deleted k _ => Documented s k.user
  | .writing _ (.setUser uuid dict) =>
    ∃ u : User, dict = u.toFireObj ∧ u.uuid = uuid ∧ Documented s u
  | .enrolling _ u => ∃ username, u = makeUserInDB username u.uuid ∧
      s.accounts u.uuid = some username
  | _ => True

/-- The uid that the task is to enrol. -/
def Task.enrols : Task → Option String
  | .enrolling _ u => some u.uuid
  | _ => none

/-- Every user document is an encoded user with an account, every copy is of a document, and
no two sign-ups under way are for one uid, nor for a uid that has a document. -/
structure Identified (s : State) : Prop where
  coherent : s.store.Coherent s.accounts
  session : ∀ c m, s.session c = some m → Documented s m
  tasks : ∀ t ∈ s.tasks, TaskIdentified s t
  fresh : ∀ uid ∈ s.tasks.filterMap Task.enrols, s.store.users.get? uid = none
  nodup : (s.tasks.filterMap Task.enrols).Nodup

section Identified

variable {s s' : State}

theorem TaskIdentified.mono (h : Extends s s') {t : Task} (ht : TaskIdentified s t) :
    TaskIdentified s' t := by
  cases t with
  | answered flow c p result =>
    cases result with
    | error e => trivial
    | ok u => exact Documented.mono h ht
  | deleting k => exact Documented.mono h ht
  | deleted k err => exact Documented.mono h ht
  | writing k w =>
    cases w with
    | setUser uuid dict =>
      obtain ⟨u, hd, hu, hn⟩ := ht
      exact ⟨u, hd, hu, hn.mono h⟩
    | setRequest receiver title dict => trivial
    | deleteRequest receiver title => trivial
  | enrolling flow u =>
    obtain ⟨username, hu, hn⟩ := ht
    exact ⟨username, hu, h.accounts _ _ hn⟩
  | asked flow c p q => trivial
  | loading flow c uuid => trivial
  | loaded flow c answer => trivial
  | creating flow username => trivial

/-- A write on its way is under the username of its document. -/
theorem TaskIdentified.names {k : Call} {w : Write} (hw : TaskIdentified s (.writing k w))
    (hs : s.store.Coherent s.accounts) : w.Names s.accounts := by
  cases w with
  | setUser uuid dict =>
    obtain ⟨u, rfl, rfl, hu⟩ := hw
    exact ⟨u, rfl, rfl, hs.username hu⟩
  | setRequest receiver title dict => trivial
  | deleteRequest receiver title => trivial

/-! The parts of a step. -/

theorem Identified.setTasks (h : Identified s) {ts : List Task} (n : ℕ)
    (hts : ∀ t ∈ ts, t ∈ s.tasks ∨ TaskIdentified s t)
    (hsub : (ts.filterMap Task.enrols).Sublist (s.tasks.filterMap Task.enrols)) :
    Identified { s with tasks := ts, next := n } where
  coherent := h.coherent
  session := h.session
  tasks t ht := (hts t ht).elim (h.tasks t) fun ht' => ht'.mono (Extends.tasks s ts n)
  fresh uid hu := h.fresh uid (hsub.subset hu)
  nodup := h.nodup.sublist hsub

theorem Identified.drop (h : Identified s) (i : ℕ) : Identified (s.drop i) :=
  h.setTasks s.next (fun _ ht => Or.inl (mem_of_mem_drop ht))
    ((List.eraseIdx_sublist s.tasks i).filterMap _)

theorem Identified.append (h : Identified s) {ts : List Task} (n : ℕ)
    (hts : ∀ t ∈ ts, TaskIdentified s t ∧ t.enrols = none) :
    Identified { s with tasks := s.tasks ++ ts, next := n } := by
  refine h.setTasks n (fun t ht => ?_) ?_
  · exact (List.mem_append.mp ht).imp id fun ht' => (hts t ht').1
  · rw [List.filterMap_append, List.filterMap_eq_nil_iff.mpr fun t ht => (hts t ht).2,
      List.append_nil]

theorem Identified.add (h : Identified s) {t : Task} (ht : TaskIdentified s t)
    (he : t.enrols = none) : Identified (s.add t) :=
  h.append s.next fun _ ht' => List.mem_singleton.mp ht' ▸ ⟨ht, he⟩

theorem Identified.start (h : Identified s) {t : ℕ → Task} (ht : TaskIdentified s (t s.next))
    (he : (t s.next).enrols = none) : Identified (s.start t) :=
  h.append (s.next + 1) fun _ ht' => List.mem_singleton.mp ht' ▸ ⟨ht, he⟩

theorem Identified.record (h : Identified s) (e : Event) : Identified (s.record e) :=
  ⟨h.coherent, h.session, fun t ht => (h.tasks t ht).mono (Extends.record s e), h.fresh, h.nodup⟩

theorem Identified.assign (h : Identified s) {c : ℕ} {u : User} (hu : Documented s u)
    (hc : ∀ m, s.session c = some m → m.uuid = u.uuid) : Identified (s.assign c u) := by
  refine ⟨h.coherent, fun c' m hm => ?_, fun t ht => (h.tasks t ht).mono (Extends.assign hc),
    h.fresh, h.nodup⟩
  rw [session_assign] at hm
  split_ifs at hm
  · exact Option.some.inj hm ▸ hu
  · exact h.session c' m hm

theorem Identified.issue (h : Identified s) {k : Call} {out : Outcome} {m : User}
    (hm : s.session k.client = some m) (hu : out.currentUser.uuid = m.uuid)
    (hn : out.currentUser.username = m.username)
    (hw : ∀ w ∈ out.writes, TaskIdentified s (.writing k w)) : Identified (s.issue k out) := by
  have hc : ∀ m', s.session k.client = some m' → m'.uuid = out.currentUser.uuid := fun m' hm' => by
    rw [hu, Option.some.inj (hm'.symm.trans hm)]
  have hdoc : Documented s out.currentUser := by
    rw [Documented, hu, hn]
    exact h.session _ m hm
  refine (h.assign hdoc hc).append s.next fun t ht => ?_
  obtain ⟨w, hw', rfl⟩ := List.mem_map.mp ht
  exact ⟨(hw w hw').mono (Extends.assign hc), rfl⟩

/-- A write whose document no sign-up is about to create. -/
theorem Identified.write (h : Identified s) {w : Write} (hw : w.Names s.accounts)
    (hf : ∀ uuid dict, w = .setUser uuid dict → uuid ∉ s.tasks.filterMap Task.enrols) :
    Identified (s.write w) := by
  have hext := Extends.write h.coherent hw
  refine ⟨h.coherent.apply hw, fun c m hm => (h.session c m hm).mono hext,
    fun t ht => (h.tasks t ht).mono hext, fun uid hu => ?_, h.nodup⟩
  cases w with
  | setUser uuid dict =>
    have hne : uid ≠ uuid := fun he => hf uuid dict rfl (he ▸ hu)
    simp only [State.write, Store.apply_setUser_get?, if_neg hne]
    exact h.fresh uid hu
  | setRequest receiver title dict => exact h.fresh uid hu
  | deleteRequest receiver title => exact h.fresh uid hu

/-- A stored document is not one that a sign-up is about to create. -/
theorem Identified.not_enrols (h : Identified s) {u : User} (hu : Documented s u) :
    u.uuid ∉ s.tasks.filterMap Task.enrols := by
  intro hmem
  rw [Documented, Store.username, h.fresh _ hmem] at hu
  cases hu

/-- A user being enrolled has an account, empty lists and no document yet. -/
theorem Identified.enrolling (h : Identified s) {flow : ℕ} {u : User}
    (ht : .enrolling flow u ∈ s.tasks) : u.Known s.accounts ∧ u.friends = [] ∧ u.blocked = [] ∧
      s.store.users.get? u.uuid = none := by
  obtain ⟨username, hu, hn⟩ : ∃ username, u = makeUserInDB username u.uuid ∧
      s.accounts u.uuid = some username := h.tasks _ ht
  refine ⟨?_, ?_, ?_, h.fresh _ (List.mem_filterMap.mpr ⟨_, ht, rfl⟩)⟩
  · rw [User.Known, hn, hu]
    rfl
  · rw [hu]
    rfl
  · rw [hu]
    rfl

theorem Identified.fetched (h : Identified s) {q : Query} {o : User}
    (ho : q.answer s.store.users = .ok o) : Documented s o :=
  (h.coherent.fetched ho).username

/-- The documents that a call writes are those of the two users it works on. -/
theorem writes_identified {k : Call} (hm : Documented s k.currentUser) (ho : Documented s k.user) :
    ∀ w ∈ k.writes, TaskIdentified s (.writing k w) := by
  intro w hw
  cases w with
  | setUser uuid dict =>
    obtain ⟨u, p, hp, rfl, rfl, he⟩ := k.saves hw
    refine ⟨u, rfl, rfl, ?_⟩
    rw [Documented, he.uuid, he.username]
    obtain rfl | rfl := Call.mem_copies.mp hp
    · exact hm
    · exact ho
  | setRequest receiver title dict => trivial
  | deleteRequest receiver title => trivial

theorem acceptDeleted_identity (o m : User) (err : Bool) :
    (acceptDeleted o m err).currentUser.uuid = m.uuid ∧
      (acceptDeleted o m err).currentUser.username = m.username := by
  simp only [acceptDeleted]
  split_ifs <;> exact ⟨rfl, rfl⟩

/-- No operation changes who the current user is. -/
theorem perform_identity (m o : User) (op : Operation) :
    (perform m o op).currentUser.uuid = m.uuid ∧
      (perform m o op).currentUser.username = m.username := by
  cases op with
  | send => exact ⟨rfl, rfl⟩
  | accept => exact acceptDeleted_identity o m false
  | ignore =>
    simp only [perform, ignoreFriendRequest]
    split_ifs <;> exact ⟨rfl, rfl⟩
  | unfriend => exact ⟨(unfriendUser_rest m o).1, (unfriendUser_rest m o).2.1⟩
  | block =>
    simp only [perform, blockUser_eq]
    exact ⟨(unfriendUser_rest m o).1, (unfriendUser_rest m o).2.1⟩

/-- A step assigns to a session the user that logs in, or its own user edited. -/
theorem Assigned.identity {a : Action} {c : ℕ} {m' : User} (h : Assigned s a c m') :
    (s.session c = none ∧ ∃ i err flow, a = .advance i err ∧
        s.tasks[i]? = some (.answered flow c .logIn (.ok m'))) ∨
      ∃ m, s.session c = some m ∧ m'.uuid = m.uuid ∧ m'.username = m.username := by
  cases h with
  | loggedIn i err flow c u ht hc => exact Or.inl ⟨hc, i, err, flow, rfl, ht⟩
  | called i err k ht hm hop => exact Or.inr ⟨_, hm, perform_identity _ _ _⟩
  | loaded i err flow c answer ht m hm =>
    refine Or.inr ⟨m, hm, ?_⟩
    cases answer <;> exact ⟨rfl, rfl⟩
  | completed i err err' k ht m hm => exact Or.inr ⟨m, hm, acceptDeleted_identity _ _ _⟩

/-- A client stays logged in as the same user. -/
theorem loggedIn_next {a : Action} (hn : Next s a s') {c : ℕ} {uuid : String}
    (h : LoggedIn s c uuid) : LoggedIn s' c uuid := by
  obtain ⟨m, hm, rfl⟩ := h
  obtain heq | ⟨m', hm', hassigned⟩ := session_next hn c
  · exact ⟨m, heq.trans hm, rfl⟩
  obtain ⟨hnone, -⟩ | ⟨m₀, hm₀, huuid, -⟩ := hassigned.identity
  · rw [hm] at hnone
    cases hnone
  · obtain rfl : m₀ = m := Option.some.inj (hm₀.symm.trans hm)
    exact ⟨m', hm', huuid⟩

theorem Identified.call (h : Identified s) {k : Call}
    (hm : s.session k.client = some k.currentUser) (ho : Documented s k.user) :
    Identified (s.call k) := by
  have hs := h.record (.called k)
  unfold State.call
  split_ifs with hop
  · exact hs.add (t := .deleting k) ho rfl
  · obtain ⟨hu, hn⟩ := perform_identity k.currentUser k.user k.op
    refine hs.issue hm hu hn fun w hw => writes_identified (hs.session _ _ hm) ho w ?_
    rwa [Call.writes, if_neg hop]

/-- A new account has no document and is not being enrolled. -/
theorem Identified.enrol (h : Identified s) {flow : ℕ} {username uid : String}
    (hu : s.accounts uid = none) : Identified (s.enrol flow username uid) := by
  have hext := Extends.enrol flow username hu
  have henrols : (s.enrol flow username uid).tasks.filterMap Task.enrols =
      s.tasks.filterMap Task.enrols ++ [uid] := by
    rw [State.enrol, List.filterMap_append]
    rfl
  have hnew : uid ∉ s.tasks.filterMap Task.enrols := fun hmem => by
    obtain ⟨t, ht, he⟩ := List.mem_filterMap.mp hmem
    cases t with
    | enrolling flow' u =>
      obtain ⟨username', -, hk⟩ : ∃ username', _ ∧ s.accounts u.uuid = some username' :=
        h.tasks _ ht
      rw [Option.some.inj he, hu] at hk
      cases hk
    | _ => cases he
  refine ⟨fun k d hd => ?_, h.session, fun t ht => ?_, fun uid' hu' => ?_, ?_⟩
  · obtain ⟨u, hu, hk, hn⟩ := h.coherent k d hd
    exact ⟨u, hu, hk, hext.accounts _ _ hn⟩
  · rcases List.mem_append.mp ht with ht | ht
    · exact (h.tasks t ht).mono hext
    · rw [List.mem_singleton.mp ht]
      exact ⟨username, rfl, by simp [State.enrol, makeUserInDB, User.init]⟩
  · rw [henrols] at hu'
    rcases List.mem_append.mp hu' with hu' | hu'
    · exact h.fresh uid' hu'
    · rw [List.mem_singleton.mp hu']
      cases hd : s.store.users.get? uid with
      | none => exact hd
      | some d =>
        obtain ⟨u, -, rfl, hn⟩ := h.coherent uid d hd
        rw [User.Known, hu] at hn
        cases hn
  · rw [henrols]
    exact List.nodup_append.mpr ⟨h.nodup, List.nodup_singleton uid,
      fun x hx y hy => by rw [List.mem_singleton.mp hy]; exact fun he => hnew (he ▸ hx)⟩

theorem Identified.next {a : Action} (h : Identified s) (hi : AllIssued s) (hn : Next s a s') :
    Identified s' := by
  cases hn with
  | stay hs => exact h
  | lookup ha c p q hp => exact h.start trivial rfl
  | tapped ha c m r hm hr => exact h.start trivial rfl
  | load ha c m hm => exact h.start trivial rfl
  | ended i err t ht he => exact h.drop i
  | answer i err flow c p q ht result hr =>
    refine (h.drop i).add ?_ rfl
    cases result with
    | error e => trivial
    | ok u => exact (h.drop i).fetched (hr u rfl)
  | free i err flow c username result ht hr => exact (h.drop i).add trivial rfl
  | loggedIn i err flow c u ht hc =>
    have hu : Documented s u := h.tasks _ (List.mem_of_getElem? ht)
    exact (h.drop i).assign hu fun m hm => absurd (hm.symm.trans hc) (by simp)
  | checked i err flow c username result ht hr => exact (h.drop i).add trivial rfl
  | called i err k ht hm =>
    have ho : Documented s k.user := h.tasks _ (List.mem_of_getElem? ht)
    exact (h.drop i).call hm ho
  | loadAnswer i err flow c uuid ht answer ha => exact (h.drop i).add trivial rfl
  | loaded i err flow c answer ht m hm =>
    have hu := h.session c m hm
    refine (h.drop i).assign (u := loadCurrentFriendRequests m answer) ?_ fun m' hm' => ?_
    · cases answer <;> exact hu
    · rw [Option.some.inj (hm'.symm.trans hm)]
      cases answer <;> rfl
  | stored i k w ht =>
    have hw := h.tasks _ (List.mem_of_getElem? ht)
    refine ((h.drop i).write (hw.names h.coherent) ?_).record _
    rintro uuid dict rfl
    obtain ⟨u, -, rfl, hu⟩ := hw
    exact (h.drop i).not_enrols hu
  | deleteFailed i k ht =>
    have hk : Documented s k.user := h.tasks _ (List.mem_of_getElem? ht)
    exact (h.drop i).add (t := .deleted k true) hk rfl
  | deleteStored i k ht =>
    have hk : Documented s k.user := h.tasks _ (List.mem_of_getElem? ht)
    have hw := (h.drop i).write (w := acceptFriendRequest k.user k.currentUser) trivial
      fun _ _ he => by cases he
    exact (hw.record _).add (t := .deleted k false) hk rfl
  | completed i err err' k ht m hm =>
    have ho : Documented s k.user := h.tasks _ (List.mem_of_getElem? ht)
    have hop : k.op = .accept := hi _ (List.mem_of_getElem? ht)
    obtain ⟨hu, hn⟩ := acceptDeleted_identity k.user m err'
    refine (h.drop i).issue (m := m) hm hu hn fun w hw => ?_
    refine writes_identified (k := { k with currentUser := m }) (h.session _ m hm) ho w ?_
    cases err' with
    | false => rwa [Call.writes, if_pos hop]
    | true => simp [acceptDeleted_err] at hw
  | created i flow username uid ht hu => exact (h.drop i).enrol hu
  | enrollFailed i flow u ht => exact (h.drop i).record _
  | enrolled i flow u ht =>
    have hu := (h.enrolling (List.mem_of_getElem? ht)).1
    refine ((h.drop i).write (w := .setUser u.uuid u.toFireObj) ⟨u, rfl, rfl, hu⟩ ?_).record _
    rintro uuid dict ⟨⟩
    have hperm := (perm_drop ht).filterMap Task.enrols
    exact (List.nodup_cons.mp (hperm.nodup_iff.mp h.nodup)).1

/-- Only the document of a sign-up changes the names. -/
theorem username_next {a : Action} (hi : Identified s) (hn : Next s a s') :
    s'.store.username = s.store.username ∨
      ∃ i flow u, a = .advance i false ∧ s.tasks[i]? = some (.enrolling flow u) ∧
        ∀ k, s'.store.username k = if k = u.uuid then some u.username else s.store.username k := by
  obtain hsame | ⟨i, k, uuid, dict, -, ht, hset⟩ | ⟨i, flow, u, ha, ht, hset⟩ := users_next hn
  · left
    funext k
    rw [Store.username, Store.username, hsame]
  · left
    obtain ⟨u, rfl, rfl, hu⟩ : ∃ u : User, dict = u.toFireObj ∧ u.uuid = uuid ∧ Documented s u :=
      hi.tasks _ (List.mem_of_getElem? ht)
    rw [← Store.username_apply (s := s.store) (w := .setUser u.uuid u.toFireObj) ⟨u, rfl, rfl, hu⟩]
    funext k
    rw [Store.username, Store.username, hset, Store.apply]
  · right
    refine ⟨i, flow, u, ha, ht, fun k => ?_⟩
    rw [← Store.apply_setUser_username, Store.username, Store.username, hset, Store.apply]

theorem accounts_next {a : Action} (hn : Next s a s') {k n : String}
    (hk : s.accounts k = some n) : s'.accounts k = some n := by
  cases hn with
  | created i flow username uid ht hu => exact (Extends.enrol flow username hu).accounts k n hk
  | called i err k' ht hm =>
    unfold State.call
    split_ifs <;> exact hk
  | _ => exact hk

/-- No step loses a part of the log, a name or the user of a session. -/
theorem Identified.extends {a : Action} (h : Identified s) (hn : Next s a s') :
    Extends s s' := by
  refine ⟨log_next hn, fun k n => accounts_next hn, fun k n hk => ?_, fun c uuid => loggedIn_next hn⟩
  obtain hsame | ⟨i, flow, u, -, ht, hset⟩ := username_next h hn
  · rw [hsame, hk]
  · -- the document of a sign-up is a new one
    have hnew := (h.enrolling (List.mem_of_getElem? ht)).2.2.2
    have hne : k ≠ u.uuid := by
      rintro rfl
      rw [Store.username, hnew] at hk
      cases hk
    rw [hset, if_neg hne, hk]

end Identified

/-! ### Runs -/

/-- A state from which a run may begin: encoded users with accounts, nobody logged in and
nothing under way. -/
structure Start (s : State) : Prop where
  coherent : s.store.Coherent s.accounts
  session : ∀ c, s.session c = none
  tasks : s.tasks = []
  log : s.log = []

theorem Initial.start {s : State} (h : Initial s) : Start s where
  coherent k d hd := by
    obtain ⟨u, hu, rfl, hn, -⟩ := h.docs k d hd
    exact ⟨u, hu, rfl, hn⟩
  session := h.session
  tasks := h.tasks
  log := h.log

theorem Start.allIssued {s : State} (h : Start s) : AllIssued s := by
  intro t ht
  rw [h.tasks] at ht
  cases ht

theorem Start.identified {s : State} (h : Start s) : Identified s where
  coherent := h.coherent
  session c m hm := by
    rw [h.session] at hm
    cases hm
  tasks t ht := by
    rw [h.tasks] at ht
    cases ht
  fresh uid hu := by
    rw [h.tasks] at hu
    cases hu
  nodup := by
    rw [h.tasks]
    exact List.nodup_nil

theorem Start.identified_run {s : State} (h : Start s) (as : List Action) :
    Identified (Runs.run step s as) :=
  (Runs.invariant (I := fun s => Identified s ∧ AllIssued s)
    (fun s a hs => ⟨hs.1.next hs.2 (next_step s a), hs.2.next (next_step s a)⟩)
    ⟨h.identified, h.allIssued⟩ as).1

end JamSession.Interleaved
