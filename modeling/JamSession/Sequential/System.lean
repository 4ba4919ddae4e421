import Mathlib.Data.List.Nodup
import JamSession.Library.Runs
import JamSession.Controllers.Effects

/-! The friend system with one operation at a time. Any number of clients share the store.
A client's `currentUser` is decoded from the store once, at login, and is the same object
for the rest of the session; the user an operation is about is fetched when the operation
starts. Each operation then runs to completion, its deletes acknowledged, its completions
run and its writes stored, before the next one begins. -/

namespace JamSession.Sequential

open UserController

inductive Operation
  | send | accept | ignore | unfriend | block
  deriving DecidableEq, Repr

/-- `call c op q` is the operation `op` on client `c`, about the user that `q` finds. -/
inductive Action
  | login (c : ℕ) (uuid : String)
  | load (c : ℕ)
  | call (c : ℕ) (op : Operation) (q : Query)

variable [UIKit]

structure State where
  store : Store
  session : ℕ → Option User

/-- The whole of an operation, about `o`, in the session of `m`. -/
def perform (m o : User) : Operation → Outcome
  | .send => ⟨m, sendFriendRequest m o⟩
  | .accept =>
    let deleted := acceptDeleted o m false
    ⟨deleted.currentUser, acceptFriendRequest o m :: deleted.writes⟩
  | .ignore => ignoreFriendRequest o m
  | .unfriend => unfriendUser m o
  | .block => blockUser m o

def step (s : State) : Action → State
  | .login c uuid =>
    match s.session c, (Query.byUuid uuid).answer s.store.users with
    | none, .ok u => { s with session := Function.update s.session c (some u) }
    | _, _ => s
  | .load c =>
    match s.session c with
    | some m => { s with session := Function.update s.session c (some
        (loadCurrentFriendRequests m
          (some ((s.store.friendRequests m.uuid).entries.map Prod.snd)))) }
    | none => s
  | .call c op q =>
    match s.session c, q.answer s.store.users with
    | some m, .ok o => {
        store := s.store.applyAll (perform m o op).writes
        session := Function.update s.session c (some (perform m o op).currentUser) }
    | _, _ => s

/-- `addFwen(ir:section:)` on the requests section: the request in row `ir` is accepted. -/
def addFwen (s : State) (c ir : ℕ) : Option Action :=
  (s.session c).bind fun m => (m.friendRequests[ir]?).map fun r =>
    .call c .accept (.byUuid r.initialUser)

/-- The condition `C` on the operation that a step performs: on the store, the session's user
and the fetched user. -/
def OnCall (C : Store → User → User → Operation → Prop) (s : State) (a : Action) : Prop :=
  ∀ c op q m o, a = .call c op q → s.session c = some m → q.answer s.store.users = .ok o →
    C s.store m o op

/-! ### What a step can do -/

section Steps

variable {s : State} {c : ℕ} {op : Operation} {q : Query}

theorem onCall_iff {C : Store → User → User → Operation → Prop} {m o : User}
    (hm : s.session c = some m) (ho : q.answer s.store.users = .ok o) :
    OnCall C s (.call c op q) ↔ C s.store m o op := by
  constructor
  · exact fun h => h c op q m o rfl hm ho
  · rintro h c' op' q' m' o' ha hm' ho'
    cases ha
    rw [hm] at hm'
    rw [ho] at ho'
    cases hm'
    cases ho'
    exact h

theorem onCall_loggedOut (C : Store → User → User → Operation → Prop)
    (hm : s.session c = none) : OnCall C s (.call c op q) := by
  rintro c' op' q' m o h hm' -
  cases h
  rw [hm] at hm'
  cases hm'

theorem onCall_notFound (C : Store → User → User → Operation → Prop) {e : ManErr}
    (he : q.answer s.store.users = .error e) : OnCall C s (.call c op q) := by
  rintro c' op' q' m o h - ho
  cases h
  rw [he] at ho
  cases ho

theorem onCall_congr {C D : Store → User → User → Operation → Prop} {a : Action}
    (h : ∀ c op q m o, a = .call c op q → s.session c = some m → q.answer s.store.users = .ok o →
      (C s.store m o op ↔ D s.store m o op)) : OnCall C s a ↔ OnCall D s a :=
  forall_congr' fun c => forall_congr' fun op => forall_congr' fun q => forall_congr' fun m =>
    forall_congr' fun o => imp_congr_right fun ha => imp_congr_right fun hm =>
      imp_congr_right fun ho => h c op q m o ha hm ho

/-- A step without an operation leaves the store alone and changes at most one session, to a
user that was just decoded or to one with more requests. -/
structure Idle (s s' : State) : Prop where
  store : s'.store = s.store
  session : ∀ c m', s'.session c = some m' → s.session c = some m' ∨
    (∃ q : Query, q.answer s.store.users = .ok m') ∨
    ∃ m rs, s.session c = some m ∧ m' = m.addRequests rs

theorem Idle.refl (s : State) : Idle s s := ⟨rfl, fun _ _ h => Or.inl h⟩

theorem Idle.update {m' : User} (h : (∃ q : Query, q.answer s.store.users = .ok m') ∨
    ∃ m rs, s.session c = some m ∧ m' = m.addRequests rs) :
    Idle s { s with session := Function.update s.session c (some m') } := by
  refine ⟨rfl, fun c' m'' hc' => ?_⟩
  simp only [Function.update_apply] at hc'
  split_ifs at hc' with hc
  · subst hc
    exact Or.inr (Option.some.inj hc' ▸ h)
  · exact Or.inl hc'

/-- A step performs an operation about a fetched user, or it is idle. -/
theorem step_cases (s : State) (a : Action) :
    (∃ c op q m o, a = .call c op q ∧ s.session c = some m ∧ q.answer s.store.users = .ok o ∧
      step s a = ⟨s.store.applyAll (perform m o op).writes,
        Function.update s.session c (some (perform m o op).currentUser)⟩) ∨
    (∀ C, OnCall C s a) ∧ Idle s (step s a) := by
  cases a with
  | login c uuid =>
    refine Or.inr ⟨fun C => by simp [OnCall], ?_⟩
    match hm : s.session c, ho : (Query.byUuid uuid).answer s.store.users with
    | none, .ok u =>
      simp only [step, hm, ho]
      exact Idle.update (Or.inl ⟨_, ho⟩)
    | none, .error e =>
      simp only [step, hm, ho]
      exact Idle.refl s
    | some m, _ =>
      simp only [step, hm]
      exact Idle.refl s
  | load c =>
    refine Or.inr ⟨fun C => by simp [OnCall], ?_⟩
    match hm : s.session c with
    | some m =>
      simp only [step, hm]
      exact Idle.update (Or.inr ⟨m, _, hm, rfl⟩)
    | none =>
      simp only [step, hm]
      exact Idle.refl s
  | call c op q =>
    match hm : s.session c, ho : q.answer s.store.users with
    | some m, .ok o => exact Or.inl ⟨c, op, q, m, o, rfl, hm, ho, by simp only [step, hm, ho]⟩
    | none, _ =>
      refine Or.inr ⟨fun C => onCall_loggedOut C hm, ?_⟩
      simp only [step, hm]
      exact Idle.refl s
    | some m, .error e =>
      refine Or.inr ⟨fun C => onCall_notFound C ho, ?_⟩
      simp only [step, hm, ho]
      exact Idle.refl s

end Steps

/-! ### Initial states and the identity of users -/

/-- Users with empty friends lists, each under its own uuid and a username of its own;
nobody is logged in. The blocked lists and the request collections are arbitrary. -/
structure Initial (s : State) : Prop where
  docs : ∀ k d, s.store.users.get? k = some d →
    ∃ u : User, d = u.toFireObj ∧ u.uuid = k ∧ u.friends = []
  unique : ∀ j k n, s.store.username j = some n → s.store.username k = some n → j = k
  sessions : ∀ c, s.session c = none

/-- What holds of identities in every state. -/
structure WellKept (s : State) : Prop where
  coherent : s.store.Coherent s.store.username
  unique : ∀ j k n, s.store.username j = some n → s.store.username k = some n → j = k
  sessions : ∀ c m, s.session c = some m → m.Known s.store.username

theorem Initial.wellKept {s : State} (h : Initial s) : WellKept s where
  coherent k d hd := by
    obtain ⟨u, rfl, rfl, -⟩ := h.docs k d hd
    exact ⟨u, rfl, rfl, Store.username_of_get? hd⟩
  unique := h.unique
  sessions c m hm := by rw [h.sessions c] at hm; cases hm

theorem Initial.friends {s : State} (h : Initial s) (k : String) : s.store.friends k = [] := by
  cases hd : s.store.users.get? k with
  | none => simp [Store.friends, hd]
  | some d =>
    obtain ⟨u, rfl, rfl, hf⟩ := h.docs k d hd
    rw [Store.friends_of_get? hd, hf]

/-- Freshly signed-up users, given by uuid and username, with no requests and nobody logged
in. -/
def signedUp (accounts : List (String × String)) : State where
  store := {
    users := accounts.foldr (fun a us => us.set a.1 (makeUserInDB a.2 a.1).toFireObj) ∅
    friendRequests := fun _ => ∅ }
  session _ := none

theorem signedUp_get? {accounts : List (String × String)} {k : String} {d : Dict}
    (h : (signedUp accounts).store.users.get? k = some d) :
    ∃ n, (k, n) ∈ accounts ∧ d = (makeUserInDB n k).toFireObj := by
  induction accounts with
  | nil => simp [signedUp] at h
  | cons a as ih =>
    simp only [signedUp, List.foldr_cons, OrderedMap.get?_set] at h
    split_ifs at h with hk
    · subst hk
      exact ⟨a.2, by simp, (Option.some.inj h).symm⟩
    · obtain ⟨n, hn, hd⟩ := ih h
      exact ⟨n, by simp [hn], hd⟩

theorem signedUp_username {accounts : List (String × String)} {k n : String}
    (h : (signedUp accounts).store.username k = some n) : (k, n) ∈ accounts := by
  obtain ⟨d, hd, hn⟩ := Option.bind_eq_some_iff.mp h
  obtain ⟨n', hn', rfl⟩ := signedUp_get? hd
  rw [User.toFireObj_username, Option.some.injEq] at hn
  exact hn ▸ hn'

theorem signedUp_blocked (accounts : List (String × String)) (k : String) :
    (signedUp accounts).store.blocked k = [] := by
  cases hd : (signedUp accounts).store.users.get? k with
  | none => simp [Store.blocked, hd]
  | some d =>
    obtain ⟨n, -, rfl⟩ := signedUp_get? hd
    simp [Store.blocked, hd, makeUserInDB, User.init]

theorem initial_signedUp {accounts : List (String × String)}
    (h : (accounts.map Prod.snd).Nodup) : Initial (signedUp accounts) where
  docs k d hd := by
    obtain ⟨n, -, rfl⟩ := signedUp_get? hd
    exact ⟨_, rfl, rfl, rfl⟩
  unique j k n hj hk := by
    have := List.inj_on_of_nodup_map h (signedUp_username hj) (signedUp_username hk) rfl
    exact (Prod.ext_iff.mp this).1
  sessions _ := rfl

theorem perform_keeps {P : User → Prop} (hP : Stable P) {m o : User} (hm : P m) (ho : P o)
    (op : Operation) : (perform m o op).Keeps P := by
  cases op with
  | send => exact ⟨hm, sendFriendRequest_stores m o⟩
  | accept =>
    have h := acceptDeleted_keeps hP hm ho false
    refine ⟨h.currentUser, fun w hw => ?_⟩
    rcases List.mem_cons.mp hw with rfl | hw
    · trivial
    · exact h.writes w hw
  | ignore => exact ignoreFriendRequest_keeps hP hm
  | unfriend => exact unfriendUser_keeps hP hm ho
  | block => exact blockUser_keeps hP hm ho

theorem perform_names {name : String → Option String} {m o : User} (hm : m.Known name)
    (ho : o.Known name) (op : Operation) :
    (perform m o op).currentUser.Known name ∧ ∀ w ∈ (perform m o op).writes, w.Names name :=
  (perform_keeps (stable_known name) hm ho op).names

theorem username_step {s : State} (h : WellKept s) (a : Action) :
    (step s a).store.username = s.store.username := by
  obtain ⟨c, op, q, m, o, -, hm, ho, hstep⟩ | ⟨-, hidle⟩ := step_cases s a
  · have ho' := h.coherent.fetched ho
    rw [hstep]
    exact Store.username_applyAll (perform_names (h.sessions c m hm) ho'.known op).2
  · rw [hidle.store]

theorem WellKept.step {s : State} (h : WellKept s) (a : Action) : WellKept (step s a) := by
  have hname := username_step h a
  obtain ⟨c, op, q, m, o, -, hm, ho, hstep⟩ | ⟨-, hidle⟩ := step_cases s a
  · have hp := perform_names (h.sessions c m hm) (h.coherent.fetched ho).known op
    refine ⟨?_, ?_, fun c' m' hm' => ?_⟩
    · rw [hname, hstep]
      exact h.coherent.applyAll hp.2
    · rw [hname]
      exact h.unique
    · rw [hname]
      rw [hstep] at hm'
      simp only [Function.update_apply] at hm'
      split_ifs at hm'
      · exact Option.some.inj hm' ▸ hp.1
      · exact h.sessions c' m' hm'
  · refine ⟨hname.symm ▸ hidle.store.symm ▸ h.coherent, hname.symm ▸ h.unique, fun c m' hm' => ?_⟩
    rw [hname]
    obtain hm | ⟨q, hq⟩ | ⟨m, rs, hm, rfl⟩ := hidle.session c m' hm'
    · exact h.sessions c m' hm
    · exact (h.coherent.fetched hq).known
    · exact h.sessions c m hm

end JamSession.Sequential
