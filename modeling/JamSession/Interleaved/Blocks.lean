import JamSession.Interleaved.Identity
import JamSession.Firestore.PlainKit

/-! Whom a user has blocked. Every client that accepts, unfriends or blocks writes back the
documents of two users, `blocked` lists included, from copies that may be old; so that a name
got on a list by its owner's own block alone is a fact about all documents, copies and writes
on their way at once. The rule for such facts is stated for any property of users that the
parts of a step keep. In memory nothing is lost: the list of a session is the one it was
logged in with and the blocks called in it, in their order. -/

namespace JamSession.Interleaved

open UserController JamSession.Sequential

section

variable [UIKit]

/-! ### Facts about every copy -/

def TaskCopies (P : User → Prop) : Task → Prop
  | .answered _ _ _ (.ok u) => P u
  | .deleting k | .deleted k _ => P k.user
  | .writing _ w => w.Stores P
  | .enrolling _ u => P u
  | _ => True

/-- `P` holds of every user that is stored, in memory, fetched, or on its way to the store. -/
structure Copies (P : User → Prop) (s : State) : Prop where
  docs : ∀ k d, s.store.users.get? k = some d → ∃ u : User, d = u.toFireObj ∧ u.uuid = k ∧ P u
  session : ∀ c m, s.session c = some m → P m
  tasks : ∀ t ∈ s.tasks, TaskCopies P t

/-- What is true of the copies stays true of them, and of what the program makes of them. -/
structure Carried (P : State → User → Prop) : Prop where
  mono : ∀ {s s' u}, Extends s s' → P s u → P s' u
  fetched : ∀ {s w u}, w.CopyOf u → P s u → P s w
  loaded : ∀ {s m} answer, P s m → P s (loadCurrentFriendRequests m answer)
  performed : ∀ {s k}, .called k ∈ s.log → Documented s k.user → P s k.currentUser → P s k.user →
    (perform k.currentUser k.user k.op).Keeps (P s)
  accepted : ∀ {s m o} err, P s m → P s o → (acceptDeleted o m err).Keeps (P s)
  enrolled : ∀ s username uid, P s (makeUserInDB username uid)

theorem Write.Stores.mono {P Q : User → Prop} (hPQ : ∀ u, P u → Q u) {w : Write}
    (hw : w.Stores P) : w.Stores Q := by
  cases w with
  | setUser uuid dict =>
    obtain ⟨u, hd, hu, hP⟩ := hw
    exact ⟨u, hd, hu, hPQ u hP⟩
  | setRequest receiver title dict => trivial
  | deleteRequest receiver title => trivial

theorem Copies.mono {P Q : User → Prop} (hPQ : ∀ u, P u → Q u) {s : State} (h : Copies P s) :
    Copies Q s where
  docs k d hd := by
    obtain ⟨u, hu, huuid, hP⟩ := h.docs k d hd
    exact ⟨u, hu, huuid, hPQ u hP⟩
  session c m hm := hPQ m (h.session c m hm)
  tasks t ht := by
    have hP := h.tasks t ht
    cases t with
    | answered flow c p result =>
      cases result with
      | error e => trivial
      | ok u => exact hPQ u hP
    | deleting k => exact hPQ k.user hP
    | deleted k err => exact hPQ k.user hP
    | writing k w => exact Write.Stores.mono hPQ hP
    | enrolling flow u => exact hPQ u hP
    | _ => trivial

theorem Copies.fetched {P : State → User → Prop} (hP : Carried P) {s : State}
    (h : Copies (P s) s) {q : Query} {o : User} (ho : q.answer s.store.users = .ok o) : P s o := by
  have hkey : ∀ field value, grabUser (some (usersWhere s.store.users field value)) = .ok o →
      P s o := by
    intro field value hg
    obtain ⟨k, d, hk, -, hd⟩ := grabUser_usersWhere hg
    obtain ⟨u, rfl, -, hu⟩ := h.docs k d hk
    exact hP.fetched (User.fromStringAny_toFireObj hd) hu
  cases q with
  | byUsername username => exact hkey _ _ ho
  | byUuid uuid => exact hkey _ _ ho

section Steps

variable {P : State → User → Prop} {s : State}

theorem Copies.docs_step (hP : Carried P) (h : Copies (P s) s) (a : Action)
    (hext : Extends s (step s a)) : ∀ k d, (step s a).store.users.get? k = some d →
      ∃ u : User, d = u.toFireObj ∧ u.uuid = k ∧ P (step s a) u := by
  intro k d hd
  have hset : ∀ u : User, P s u →
      (step s a).store.users = s.store.users.set u.uuid u.toFireObj →
      ∃ u : User, d = u.toFireObj ∧ u.uuid = k ∧ P (step s a) u := by
    intro u hu hs
    rw [hs, OrderedMap.get?_set] at hd
    split_ifs at hd with hkey
    · exact ⟨u, (Option.some.inj hd).symm, hkey.symm, hP.mono hext hu⟩
    · obtain ⟨v, hv, huuid, hPv⟩ := h.docs k d hd
      exact ⟨v, hv, huuid, hP.mono hext hPv⟩
  obtain hsame | ⟨i, k', uuid, dict, -, ht, hs⟩ | ⟨i, flow, u, -, ht, hs⟩ :=
    users_next (next_step s a)
  · rw [hsame] at hd
    obtain ⟨u, hu, huuid, hPu⟩ := h.docs k d hd
    exact ⟨u, hu, huuid, hP.mono hext hPu⟩
  · obtain ⟨u, rfl, rfl, hPu⟩ : ∃ u : User, dict = u.toFireObj ∧ u.uuid = uuid ∧ P s u :=
      h.tasks _ (List.mem_of_getElem? ht)
    exact hset u hPu hs
  · exact hset u (h.tasks _ (List.mem_of_getElem? ht)) hs

/-- A call works on copies with the property, after it was logged. -/
theorem Copies.performed (hP : Carried P) (h : Copies (P s) s) (hi : Identified s) {i : ℕ}
    {err : Bool} {k : Call}
    (ht : s.tasks[i]? = some (.answered k.flow k.client (.call k.op) (.ok k.user)))
    (hm : s.session k.client = some k.currentUser)
    (hext : Extends s (step s (.advance i err))) :
    (perform k.currentUser k.user k.op).Keeps (P (step s (.advance i err))) := by
  have hlog : .called k ∈ (step s (.advance i err)).log := by
    rw [step_calls ht hm, call_log]
    exact List.mem_cons_self
  have ho : P s k.user := h.tasks _ (List.mem_of_getElem? ht)
  have hdoc : Documented s k.user := hi.tasks _ (List.mem_of_getElem? ht)
  exact hP.performed hlog (hdoc.mono hext) (hP.mono hext (h.session _ _ hm)) (hP.mono hext ho)

theorem Copies.session_step (hP : Carried P) (h : Copies (P s) s) (hi : Identified s) (a : Action)
    (hext : Extends s (step s a)) :
    ∀ c m, (step s a).session c = some m → P (step s a) m := by
  intro c m hm
  obtain hold | hassigned := session_of_next (next_step s a) hm
  · exact hP.mono hext (h.session c m hold)
  cases hassigned with
  | loggedIn i err flow c u ht hc =>
    have hu : P s m := h.tasks _ (List.mem_of_getElem? ht)
    exact hP.mono hext hu
  | called i err k ht hk hop => exact (h.performed hP hi ht hk hext).currentUser
  | loaded i err flow c answer ht m₀ hm₀ =>
    exact hP.loaded answer (hP.mono hext (h.session c m₀ hm₀))
  | completed i err err' k ht m₀ hm₀ =>
    have ho : P s k.user := h.tasks _ (List.mem_of_getElem? ht)
    exact (hP.accepted err' (hP.mono hext (h.session _ m₀ hm₀)) (hP.mono hext ho)).currentUser

theorem Copies.tasks_step (hP : Carried P) (h : Copies (P s) s) (hi : Identified s) (a : Action)
    (hi' : Identified (step s a)) (hext : Extends s (step s a)) : ∀ t ∈ (step s a).tasks, TaskCopies (P (step s a)) t := by
  intro t hin
  rcases mem_tasks_next (next_step s a) hin with hold | hadd
  · have hmono : Copies (P (step s a)) s := h.mono fun u hu => hP.mono hext hu
    exact hmono.tasks t hold
  cases hadd with
  | answered i err flow c p q ht result hr =>
    cases result with
    | error e => trivial
    | ok u => exact hP.mono hext (h.fetched hP (hr u rfl))
  | deleting i err k ht hm hop =>
    have ho : P s k.user := h.tasks _ (List.mem_of_getElem? ht)
    exact hP.mono hext ho
  | deleted i err k ht =>
    have ho : P s k.user := h.tasks _ (List.mem_of_getElem? ht)
    exact hP.mono hext ho
  | issued i err k ht hm hop w hw => exact (h.performed hP hi ht hm hext).writes w hw
  | completed i err err' k ht m hm w hw =>
    have ho : P s k.user := h.tasks _ (List.mem_of_getElem? ht)
    exact (hP.accepted err' (hP.mono hext (h.session _ m hm)) (hP.mono hext ho)).writes w hw
  | enrolling flow u =>
    obtain ⟨username, hu, -⟩ : ∃ username, u = makeUserInDB username u.uuid ∧
        (step s a).accounts u.uuid = some username := hi'.tasks _ hin
    show P (step s a) u
    rw [hu]
    exact hP.enrolled _ username u.uuid
  | _ => trivial

theorem Copies.step (hP : Carried P) (h : Copies (P s) s) (hi : Identified s) (a : Action)
    (hi' : Identified (step s a)) : Copies (P (step s a)) (step s a) :=
  have hext := hi.extends (next_step s a)
  ⟨h.docs_step hP a hext, h.session_step hP hi a hext, h.tasks_step hP hi a hi' hext⟩

/-- A property of the stored users that the program carries on holds of every copy in every
state of every run. -/
theorem Start.copies_run (hP : Carried P) (hs : Start s)
    (hd : ∀ k (u : User), s.store.users.get? k = some u.toFireObj → P s u)
    (as : List Action) : Runs.Always step (fun s => Copies (P s) s) s as := by
  have hcopies : Copies (P s) s := by
    refine ⟨fun k d hk => ?_, fun c m hm => ?_, fun t ht => ?_⟩
    · obtain ⟨u, rfl, huuid, -⟩ := hs.coherent k d hk
      exact ⟨u, rfl, huuid, hd k u hk⟩
    · rw [hs.session] at hm
      cases hm
    · rw [hs.tasks] at ht
      cases ht
  refine (Runs.always_of_invariant (I := fun s => Copies (P s) s ∧ Identified s ∧ AllIssued s)
    (fun s a h => ?_) ⟨hcopies, hs.identified, hs.allIssued⟩ as).mono fun s h => h.1
  have hi' := h.2.1.next h.2.2 (next_step s a)
  exact ⟨h.1.step hP h.2.1 a hi', hi', h.2.2.next (next_step s a)⟩

end Steps

/-! ### What the operations do to the list -/

section Operations

/-- `P` is not about the friends and the requests. -/
def Steady (P : User → Prop) : Prop :=
  ∀ (u : User) friends requests, P u → P { u with friends := friends, friendRequests := requests }

variable {P : User → Prop} {m o : User}

theorem unfriendUser_steady (hP : Steady P) (hm : P m) (ho : P o) : (unfriendUser m o).Keeps P := by
  have hm' : P (m.removeFriend o.username) := hP m _ _ hm
  have ho' : P (o.removeFriend m.username) := hP o _ _ ho
  unfold unfriendUser
  split_ifs
  · refine ⟨hm', fun w hw => ?_⟩
    rcases List.mem_append.mp hw with hw | hw
    · exact saveUser_stores ho' w hw
    · exact saveUser_stores hm' w hw
  · exact Outcome.keeps_nil hm'
  · exact Outcome.keeps_nil hm

theorem acceptDeleted_steady (hP : Steady P) (hm : P m) (ho : P o) (err : Bool) :
    (acceptDeleted o m err).Keeps P := by
  have hm' : P (m.addFriend o.username) := hP m _ _ hm
  have ho' : P (o.addFriend m.username) := hP o _ _ ho
  simp only [acceptDeleted]
  split_ifs
  · exact Outcome.keeps_nil hm
  · exact Outcome.keeps_nil hm
  · have hm'' : P ((m.addFriend o.username).removeRequest ⟨o.uuid, m.uuid⟩) := hP _ _ _ hm'
    refine ⟨hm'', fun w hw => ?_⟩
    rcases List.mem_append.mp hw with hw | hw
    · exact saveUser_stores ho' w hw
    · exact saveUser_stores hm'' w hw
  · exact ⟨hm', saveUser_stores ho'⟩

/-- Only a block asks for more: that the list may end with the name that is blocked. -/
theorem perform_steady (hP : Steady P) (hm : P m) (ho : P o) {op : Operation}
    (hblock : op = .block → ∀ u : User, u.uuid = m.uuid → u.blocked = m.blocked →
      P (u.addBlocked o.username)) : (perform m o op).Keeps P := by
  cases op with
  | send => exact ⟨hm, sendFriendRequest_stores m o⟩
  | accept =>
    have h := acceptDeleted_steady hP hm ho false
    refine ⟨h.currentUser, fun w hw => ?_⟩
    rcases List.mem_cons.mp hw with rfl | hw
    · trivial
    · exact h.writes w hw
  | ignore =>
    have hm' : P (m.removeRequest ⟨o.uuid, m.uuid⟩) := hP m _ _ hm
    simp only [perform, ignoreFriendRequest]
    split_ifs
    · refine ⟨hm', fun w hw => ?_⟩
      rcases List.mem_cons.mp hw with rfl | hw
      · trivial
      · exact saveUser_stores hm' w hw
    · exact Outcome.keeps_nil hm
  | unfriend => exact unfriendUser_steady hP hm ho
  | block =>
    obtain ⟨huuid, -, hblocked⟩ := unfriendUser_rest m o
    have hm' := hblock rfl _ huuid hblocked
    simp only [perform, blockUser_eq]
    refine ⟨hm', fun w hw => ?_⟩
    rcases List.mem_append.mp hw with hw | hw
    · exact (unfriendUser_steady hP hm ho).writes w hw
    · exact saveUser_stores hm' w hw

theorem acceptDeleted_blocked (o m : User) (err : Bool) :
    (acceptDeleted o m err).currentUser.blocked = m.blocked := by
  simp only [acceptDeleted]
  split_ifs <;> rfl

/-- The list of the current user after an operation. -/
theorem perform_blocked (m o : User) (op : Operation) : (perform m o op).currentUser.blocked =
    m.blocked ++ if op = .block then [o.username] else [] := by
  cases op with
  | send => exact (List.append_nil _).symm
  | accept => exact (acceptDeleted_blocked o m false).trans (List.append_nil _).symm
  | ignore =>
    simp only [perform, ignoreFriendRequest, reduceCtorEq, if_false, List.append_nil]
    split_ifs <;> rfl
  | unfriend => exact (unfriendUser_rest m o).2.2.trans (List.append_nil _).symm
  | block =>
    simp only [perform, blockUser_eq, if_true, User.addBlocked, (unfriendUser_rest m o).2.2]

end Operations

/-! ### Blocked by their owners -/

/-- A user goes by `x` whom the client of `b` was told to block. -/
def BlockedBy (s : State) (b x : String) : Prop :=
  ∃ k, .called k ∈ s.log ∧ k.op = .block ∧ k.currentUser.uuid = b ∧
    k.user.username = x ∧ s.store.username k.user.uuid = some x

/-- Whoever is on the list was blocked by its owner. -/
def Blocker (s : State) (u : User) : Prop := ∀ x ∈ u.blocked, BlockedBy s u.uuid x

theorem carried_blocker : Carried Blocker where
  mono {s s' u} hext hu x hx := by
    obtain ⟨k, hk, hop, hb, hn, hdoc⟩ := hu x hx
    exact ⟨k, hext.log.subset hk, hop, hb, hn, hext.username _ _ hdoc⟩
  fetched {s w u} hcopy hu x hx := by
    rw [hcopy.blocked] at hx
    rw [hcopy.uuid]
    exact hu x hx
  loaded {s m} answer hm := by
    cases answer <;> exact hm
  performed {s k} hk hdoc hm ho := by
    refine perform_steady (fun _ _ _ h => h) hm ho fun hop u huuid hblocked x hx => ?_
    show BlockedBy s u.uuid x
    rw [huuid]
    rcases List.mem_append.mp hx with hx | hx
    · exact hm x (hblocked ▸ hx)
    · obtain rfl := List.mem_singleton.mp hx
      exact ⟨k, hk, hop, rfl, rfl, hdoc⟩
  accepted {s m o} err hm ho := acceptDeleted_steady (fun _ _ _ h => h) hm ho err
  enrolled s username uid x hx := by cases hx

/-- A name on a blocked list, stored or in memory, is there because the owner of the list
blocked a user of that name, who exists. -/
structure BlockedByOwner (s : State) : Prop where
  stored : ∀ b x, x ∈ s.store.blocked b → BlockedBy s b x
  session : ∀ c m x, s.session c = some m → x ∈ m.blocked → BlockedBy s m.uuid x

/-- With no lists to begin with, every copy has only names that its owner blocked. -/
theorem Start.blocker_run {s : State} (hs : Start s) (hb : ∀ k, s.store.blocked k = [])
    (as : List Action) : Runs.Always step (fun s => Copies (Blocker s) s) s as := by
  refine hs.copies_run carried_blocker (fun k u hk x hx => ?_) as
  rw [← Store.blocked_of_get? hk, hb] at hx
  cases hx

theorem Copies.blockedByOwner {s : State} (h : Copies (Blocker s) s) : BlockedByOwner s := by
  refine ⟨fun b x hx => ?_, fun c m x hm hx => h.session c m hm x hx⟩
  cases hk : s.store.users.get? b with
  | none =>
    rw [Store.blocked, hk] at hx
    cases hx
  | some d =>
    obtain ⟨u, rfl, rfl, hu⟩ := h.docs b d hk
    exact hu x (Store.blocked_of_get? hk ▸ hx)

/-- Nobody gets on a blocked list but by a block of its owner, in whatever order the steps of
all clients run and however old the copies are that they write back. -/
theorem blockedByOwner_run {s : State} (hs : Start s) (hb : ∀ k, s.store.blocked k = [])
    (as : List Action) : Runs.Always step BlockedByOwner s as :=
  (hs.blocker_run hb as).mono fun _ h => h.blockedByOwner

/-! ### The list of a session -/

/-- The name that the client `c` is told to block. -/
def Event.blockedBy (c : ℕ) : Event → Option String
  | .called k => if k.client = c ∧ k.op = .block then some k.user.username else none
  | _ => none

/-- The names that the client was told to block, the first one first. -/
def blockedIn (c : ℕ) (log : List Event) : List String :=
  log.reverse.filterMap (Event.blockedBy c)

theorem blockedIn_cons (c : ℕ) (e : Event) (log : List Event) :
    blockedIn c (e :: log) = blockedIn c log ++ (e.blockedBy c).toList := by
  cases h : e.blockedBy c <;> simp [blockedIn, h]

/-- The session is still of the same user, whose list has become longer by `xs`. -/
structure LongerBy (s : State) (c : ℕ) (m : User) (s' : State) (xs : List String) : Prop where
  session : ∃ m', s'.session c = some m' ∧ m'.uuid = m.uuid ∧ m'.blocked = m.blocked ++ xs
  log : blockedIn c s'.log = blockedIn c s.log ++ xs

section Session

variable {s s' : State} {c : ℕ} {m : User}

theorem LongerBy.same (hm : s'.session c = some m) (hlog : blockedIn c s'.log = blockedIn c s.log) :
    LongerBy s c m s' [] :=
  ⟨⟨m, hm, rfl, (List.append_nil _).symm⟩, by rw [hlog, List.append_nil]⟩

/-- A user is put in memory whose list is the one that the log accounts for. -/
theorem LongerBy.assigned {c' : ℕ} {u : User} {xs : List String} (hm : s.session c = some m)
    (hs : s'.session = (s.assign c' u).session)
    (hu : c = c' → u.uuid = m.uuid ∧ u.blocked = m.blocked ++ xs) (hne : c ≠ c' → xs = [])
    (hlog : blockedIn c s'.log = blockedIn c s.log ++ xs) : LongerBy s c m s' xs := by
  refine ⟨?_, hlog⟩
  rw [hs, session_assign]
  split_ifs with hc
  · exact ⟨u, rfl, hu hc⟩
  · exact ⟨m, hm, rfl, by rw [hne hc, List.append_nil]⟩

theorem longerBy_next {a : Action} (hm : s.session c = some m) (hn : Next s a s') :
    ∃ xs, LongerBy s c m s' xs := by
  have hrecord : ∀ (s : State) (e : Event), e.blockedBy c = none →
      blockedIn c (s.record e).log = blockedIn c s.log := by
    intro s e he
    show blockedIn c (e :: s.log) = _
    rw [blockedIn_cons, he, Option.toList_none, List.append_nil]
  cases hn with
  | loggedIn i err flow c' u ht hc =>
    have hne : c ≠ c' := by
      rintro rfl
      rw [hm] at hc
      cases hc
    exact ⟨[], .assigned hm rfl (fun h => absurd h hne) (fun _ => rfl) (List.append_nil _).symm⟩
  | called i err k ht hk =>
    have hlog : blockedIn c ((s.drop i).call k).log =
        blockedIn c s.log ++ (Event.blockedBy c (.called k)).toList := by
      rw [call_log, blockedIn_cons]
      rfl
    by_cases hop : k.op = .accept
    · have hnone : Event.blockedBy c (.called k) = none := by simp [Event.blockedBy, hop]
      refine ⟨[], .same ?_ ?_⟩
      · rw [State.call, if_pos hop]
        exact hm
      · rw [hlog, hnone, Option.toList_none, List.append_nil]
    · have hsession : ((s.drop i).call k).session =
          (s.assign k.client (perform k.currentUser k.user k.op).currentUser).session := by
        rw [State.call, if_neg hop]
        rfl
      refine ⟨_, .assigned hm hsession ?_ ?_ hlog⟩
      · rintro rfl
        obtain rfl : k.currentUser = m := Option.some.inj (hk.symm.trans hm)
        refine ⟨(perform_identity _ _ _).1, ?_⟩
        rw [perform_blocked]
        by_cases hblock : k.op = .block <;> simp [Event.blockedBy, hblock]
      · intro hne
        simp [Event.blockedBy, Ne.symm hne]
  | loaded i err flow c' answer ht m₀ hm₀ =>
    refine ⟨[], .assigned hm rfl ?_ (fun _ => rfl) (List.append_nil _).symm⟩
    rintro rfl
    obtain rfl : m₀ = m := Option.some.inj (hm₀.symm.trans hm)
    cases answer <;> exact ⟨rfl, (List.append_nil _).symm⟩
  | completed i err err' k ht m₀ hm₀ =>
    refine ⟨[], .assigned hm rfl ?_ (fun _ => rfl) (List.append_nil _).symm⟩
    rintro rfl
    obtain rfl : m₀ = m := Option.some.inj (hm₀.symm.trans hm)
    exact ⟨(acceptDeleted_identity _ _ _).1, by rw [acceptDeleted_blocked, List.append_nil]⟩
  | stored i k w ht => exact ⟨[], .same hm (hrecord _ _ rfl)⟩
  | deleteStored i k ht => exact ⟨[], .same hm (hrecord _ _ rfl)⟩
  | created i flow username uid ht hu => exact ⟨[], .same hm (hrecord s _ rfl)⟩
  | enrollFailed i flow u ht => exact ⟨[], .same hm (hrecord _ _ rfl)⟩
  | enrolled i flow u ht => exact ⟨[], .same hm (hrecord _ _ rfl)⟩
  | _ => exact ⟨[], .same hm rfl⟩

/-- Whatever else happens, the blocked list in a client's memory is the one it had and the
names blocked since, each in its turn. -/
theorem blocked_session_run (hm : s.session c = some m) (as : List Action) :
    ∃ xs, LongerBy s c m (Runs.run step s as) xs := by
  induction as generalizing s m with
  | nil => exact ⟨[], .same hm rfl⟩
  | cons a as ih =>
    obtain ⟨xs, ⟨m', hm', huuid, hblocked⟩, hlog⟩ := longerBy_next hm (next_step s a)
    obtain ⟨ys, ⟨m'', hm'', huuid', hblocked'⟩, hlog'⟩ := ih hm'
    refine ⟨xs ++ ys, ⟨m'', hm'', huuid'.trans huuid, ?_⟩, ?_⟩
    · rw [hblocked', hblocked, List.append_assoc]
    · rw [Runs.run_cons, hlog', hlog, List.append_assoc]

end Session

end

open PlainKit

/-- Ann, logged in on two clients, blocks Bob on one of them and Cat on the other. -/
def blockedTwice : List Action := List.flatten [
  [.logIn 0 "a", .logIn 1 "a"], advances 0 4, [.block 0 "bob", .block 1 "cat"], advances 0 6]

/-- The second document that is stored no longer lists Bob, but the session still does. -/
theorem blocked_session_run_blockedTwice :
    (Runs.run step abc blockedTwice).store.blocked "a" = ["cat"] ∧
      ∃ m xs, (Runs.run step abc (blockedTwice.take 6)).session 0 = some m ∧
        LongerBy (Runs.run step abc (blockedTwice.take 6)) 0 m (Runs.run step abc blockedTwice) xs := by
  refine ⟨by decide +kernel, ?_⟩
  obtain ⟨xs, h⟩ := blocked_session_run (s := Runs.run step abc (blockedTwice.take 6)) (c := 0)
    (m := _) rfl (blockedTwice.drop 6)
  rw [← Runs.run_append, List.take_append_drop] at h
  exact ⟨_, xs, rfl, h⟩

theorem blockedByOwner_run_blockedTwice :
    (∃ m, (Runs.run step abc blockedTwice).session 0 = some m ∧ m.blocked = ["bob"]) ∧
      Runs.Always step BlockedByOwner abc blockedTwice :=
  ⟨⟨_, rfl, rfl⟩, blockedByOwner_run (initial_signedUp _).start (signedUp_blocked _) blockedTwice⟩

end JamSession.Interleaved
