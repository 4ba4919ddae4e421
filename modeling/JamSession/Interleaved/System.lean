import Mathlib.Data.List.Perm.Basic
import JamSession.Sequential.System

/-! The friend system in single steps. A flow is started by a tap, a swipe or a listener and
goes on through its callbacks; what it waits for is a task. Any outstanding task may take its
next step at any time, so a lookup is answered with the collection as it is at that moment, an
answer is handled at a later one, and the writes that a call issued reach the store one by
one. Each step of the backend may fail. Logging in happens once per client, so the objects
that a callback captured are the client's `currentUser` and the user fetched for the call.

Two parts of a state are kept for statements alone: the log of the calls and of the stored
writes, newest first, and the numbers of the flows. -/

namespace JamSession.Interleaved

open UserController JamSession.Sequential

variable [UIKit]

/-- A call of one of the operations: the flow it belongs to, the client that runs it and the
two objects it works on, as they are when its body runs. -/
structure Call where
  flow : ℕ
  client : ℕ
  op : Operation
  currentUser : User
  user : User

/-- What the answer of a user lookup is for. -/
inductive Purpose
  | signUp (username : String)
  | logIn
  | check (username : String)
  | call (op : Operation)

inductive Task
  /-- A lookup that the server has not answered, and one whose answer is not handled. -/
  | asked (flow client : ℕ) (p : Purpose) (q : Query)
  | answered (flow client : ℕ) (p : Purpose) (result : Except ManErr User)
  /-- A `getDocuments` of the requests of `uuid`, before and after its answer. -/
  | loading (flow client : ℕ) (uuid : String)
  | loaded (flow client : ℕ) (answer : Option (List Dict))
  /-- A write that nothing waits for. -/
  | writing (k : Call) (w : Write)
  /-- The delete of an accept, before and after its acknowledgement. -/
  | deleting (k : Call)
  | deleted (k : Call) (err : Bool)
  /-- `createUser` and the `setData` of `makeUserInDB`. -/
  | creating (flow : ℕ) (username : String)
  | enrolling (flow : ℕ) (user : User)

inductive Event
  | called (k : Call)
  | stored (k : Call) (w : Write)
  | created (flow : ℕ) (uid : String)
  | completed (flow : ℕ) (uid : String)

/-- `accounts` are the Auth accounts by uid, with the username each signed up under. -/
structure State where
  store : Store
  session : ℕ → Option User
  tasks : List Task
  accounts : String → Option String
  next : ℕ
  log : List Event

/-! ### Parts of a step -/

namespace State

/-- A new flow begins with a task. -/
def start (s : State) (t : ℕ → Task) : State :=
  { s with tasks := s.tasks ++ [t s.next], next := s.next + 1 }

def add (s : State) (t : Task) : State := { s with tasks := s.tasks ++ [t] }

def drop (s : State) (i : ℕ) : State := { s with tasks := s.tasks.eraseIdx i }

def record (s : State) (e : Event) : State := { s with log := e :: s.log }

def assign (s : State) (c : ℕ) (u : User) : State :=
  { s with session := Function.update s.session c (some u) }

def write (s : State) (w : Write) : State := { s with store := s.store.apply w }

/-- The body of a call ran: the session's object is changed and the writes are on their way. -/
def issue (s : State) (k : Call) (out : Outcome) : State :=
  { s.assign k.client out.currentUser with tasks := s.tasks ++ out.writes.map (.writing k) }

/-- `createUser` made the account `uid`, and `makeUserInDB` is to store its document. -/
def enrol (s : State) (flow : ℕ) (username uid : String) : State :=
  { s with
    tasks := s.tasks ++ [.enrolling flow (makeUserInDB username uid)]
    accounts := Function.update s.accounts uid (some username)
    log := .created flow uid :: s.log }

/-- An operation is called; an accept goes on when its delete is acknowledged. -/
def call (s : State) (k : Call) : State :=
  let s := s.record (.called k)
  if k.op = .accept then s.add (.deleting k)
  else s.issue k (perform k.currentUser k.user k.op)

end State

/-! ### The transition function -/

/-- The completion of a lookup. -/
def answered (s : State) (flow c : ℕ) : Purpose → Except ManErr User → State
  | .signUp username, result =>
    if dbContainsUsername result then s else s.add (.creating flow username)
  | .logIn, .ok u => if (s.session c).isSome then s else s.assign c u
  | .check username, result =>
    if dbContainsUsername result then s.add (.asked flow c (.call .send) (.byUsername username))
    else s
  | .call op, .ok o => match s.session c with
    | some m => s.call ⟨flow, c, op, m, o⟩
    | none => s
  | _, .error _ => s

/-- The next step of a task that was taken from the list; `err` says that the backend fails. -/
def proceed (s : State) (err : Bool) : Task → State
  | .asked flow c p q => s.add (.answered flow c p
      (if err then .error .firebaseError else q.answer s.store.users))
  | .answered flow c p result => answered s flow c p result
  | .loading flow c uuid => s.add (.loaded flow c
      (if err then none else some ((s.store.friendRequests uuid).entries.map Prod.snd)))
  | .loaded _ c answer => match s.session c with
    | some m => s.assign c (loadCurrentFriendRequests m answer)
    | none => s
  | .writing k w => if err then s else (s.write w).record (.stored k w)
  | .deleting k =>
    let w := acceptFriendRequest k.user k.currentUser
    if err then s.add (.deleted k true)
    else ((s.write w).record (.stored k w)).add (.deleted k false)
  | .deleted k err => match s.session k.client with
    | some m => s.issue { k with currentUser := m } (acceptDeleted k.user m err)
    | none => s
  | .creating _ _ => s
  | .enrolling flow u =>
    (if err then s else s.write (.setUser u.uuid u.toFireObj)).record (.completed flow u.uuid)

inductive Action
  | signUp (c : ℕ) (username : String)
  | logIn (c : ℕ) (uuid : String)
  | addUserButtonPressed (c : ℕ) (un : String)
  | addFwen (c ir : ℕ)
  | ignore (c : ℕ) (uuid : String)
  | unfriend (c : ℕ) (q : Query)
  | block (c : ℕ) (username : String)
  | load (c : ℕ)
  | createUser (i : ℕ) (uid : String)
  | advance (i : ℕ) (err : Bool)

/-- `addFwen` reads the request of the tapped row when the tap comes. The swipes look up the
`textLabel?.text` of their cell, which need not be what the cell shows: any text.
`createUser` succeeds with a uid that no account has. -/
def step (s : State) : Action → State
  | .signUp c username => s.start fun flow => .asked flow c (.signUp username) (.byUsername username)
  | .logIn c uuid => s.start fun flow => .asked flow c .logIn (.byUuid uuid)
  | .addUserButtonPressed c un =>
    if (s.session c).isSome ∧ un ≠ "" then
      s.start fun flow => .asked flow c (.check un) (.byUsername un)
    else s
  | .addFwen c ir => match (s.session c).bind fun m => m.friendRequests[ir]? with
    | some r => s.start fun flow => .asked flow c (.call .accept) (.byUuid r.initialUser)
    | none => s
  | .ignore c uuid => s.start fun flow => .asked flow c (.call .ignore) (.byUuid uuid)
  | .unfriend c q => s.start fun flow => .asked flow c (.call .unfriend) q
  | .block c username => s.start fun flow => .asked flow c (.call .block) (.byUsername username)
  | .load c => match s.session c with
    | some m => s.start fun flow => .loading flow c m.uuid
    | none => s
  | .createUser i uid => match s.tasks[i]?, s.accounts uid with
    | some (.creating flow username), none => (s.drop i).enrol flow username uid
    | _, _ => s
  | .advance i err => match s.tasks[i]? with
    | some t => proceed (s.drop i) err t
    | none => s

/-! ### What a step can do -/

/-- Taking a task from the list. -/
theorem perm_drop {s : State} {i : ℕ} {t : Task} (h : s.tasks[i]? = some t) :
    s.tasks.Perm (t :: (s.drop i).tasks) := by
  obtain ⟨hi, rfl⟩ := List.getElem?_eq_some_iff.mp h
  exact (List.getElem_cons_eraseIdx_perm hi).symm

theorem mem_of_mem_drop {s : State} {i : ℕ} {t : Task} (h : t ∈ (s.drop i).tasks) : t ∈ s.tasks :=
  List.mem_of_mem_eraseIdx h

/-- Nothing follows the task: a failed lookup or write, an answer that changes nothing. -/
def Task.Ends (s : State) (err : Bool) : Task → Prop
  | .answered _ _ (.signUp _) result => dbContainsUsername result = true
  | .answered _ _ (.check _) result => dbContainsUsername result = false
  | .answered _ c .logIn (.ok _) => (s.session c).isSome
  | .answered _ c (.call _) (.ok _) => s.session c = none
  | .answered _ _ _ (.error _) => True
  | .loaded _ c _ => s.session c = none
  | .writing _ _ => err = true
  | .deleted k _ => s.session k.client = none
  | .creating _ _ => True
  | .asked _ _ _ _ | .loading _ _ _ | .deleting _ | .enrolling _ _ => False

/-- The transitions, with the data of the task that went on. -/
inductive Next (s : State) : Action → State → Prop
  | stay {a : Action} (hs : ∀ i err, a = .advance i err → s.tasks[i]? = none) : Next s a s
  | lookup {a : Action} (ha : ∀ i err, a ≠ .advance i err) (c : ℕ) (p : Purpose) (q : Query)
      (hp : p ≠ .call .accept) : Next s a (s.start fun flow => .asked flow c p q)
  | tapped {a : Action} (ha : ∀ i err, a ≠ .advance i err) (c : ℕ) (m : User) (r : FriendRequest)
      (hm : s.session c = some m) (hr : r ∈ m.friendRequests) :
      Next s a (s.start fun flow => .asked flow c (.call .accept) (.byUuid r.initialUser))
  | load {a : Action} (ha : ∀ i err, a ≠ .advance i err) (c : ℕ) (m : User)
      (hm : s.session c = some m) : Next s a (s.start fun flow => .loading flow c m.uuid)
  | ended (i : ℕ) (err : Bool) (t : Task) (ht : s.tasks[i]? = some t) (he : t.Ends s err) :
      Next s (.advance i err) (s.drop i)
  | answer (i : ℕ) (err : Bool) (flow c : ℕ) (p : Purpose) (q : Query)
      (ht : s.tasks[i]? = some (.asked flow c p q)) (result : Except ManErr User)
      (hr : ∀ u, result = .ok u → q.answer s.store.users = .ok u) :
      Next s (.advance i err) ((s.drop i).add (.answered flow c p result))
  | free (i : ℕ) (err : Bool) (flow c : ℕ) (username : String) (result : Except ManErr User)
      (ht : s.tasks[i]? = some (.answered flow c (.signUp username) result))
      (hr : dbContainsUsername result = false) :
      Next s (.advance i err) ((s.drop i).add (.creating flow username))
  | loggedIn (i : ℕ) (err : Bool) (flow c : ℕ) (u : User)
      (ht : s.tasks[i]? = some (.answered flow c .logIn (.ok u))) (hc : s.session c = none) :
      Next s (.advance i err) ((s.drop i).assign c u)
  | checked (i : ℕ) (err : Bool) (flow c : ℕ) (username : String) (result : Except ManErr User)
      (ht : s.tasks[i]? = some (.answered flow c (.check username) result))
      (hr : dbContainsUsername result = true) :
      Next s (.advance i err)
        ((s.drop i).add (.asked flow c (.call .send) (.byUsername username)))
  | called (i : ℕ) (err : Bool) (k : Call)
      (ht : s.tasks[i]? = some (.answered k.flow k.client (.call k.op) (.ok k.user)))
      (hm : s.session k.client = some k.currentUser) :
      Next s (.advance i err) ((s.drop i).call k)
  | loadAnswer (i : ℕ) (err : Bool) (flow c : ℕ) (uuid : String)
      (ht : s.tasks[i]? = some (.loading flow c uuid)) (answer : Option (List Dict))
      (ha : ∀ ds, answer = some ds → ds = (s.store.friendRequests uuid).entries.map Prod.snd)
      (he : err = true → answer = none) :
      Next s (.advance i err) ((s.drop i).add (.loaded flow c answer))
  | loaded (i : ℕ) (err : Bool) (flow c : ℕ) (answer : Option (List Dict))
      (ht : s.tasks[i]? = some (.loaded flow c answer)) (m : User) (hm : s.session c = some m) :
      Next s (.advance i err) ((s.drop i).assign c (loadCurrentFriendRequests m answer))
  | stored (i : ℕ) (k : Call) (w : Write) (ht : s.tasks[i]? = some (.writing k w)) :
      Next s (.advance i false) (((s.drop i).write w).record (.stored k w))
  | deleteFailed (i : ℕ) (k : Call) (ht : s.tasks[i]? = some (.deleting k)) :
      Next s (.advance i true) ((s.drop i).add (.deleted k true))
  | deleteStored (i : ℕ) (k : Call) (ht : s.tasks[i]? = some (.deleting k)) :
      Next s (.advance i false)
        ((((s.drop i).write (acceptFriendRequest k.user k.currentUser)).record
          (.stored k (acceptFriendRequest k.user k.currentUser))).add (.deleted k false))
  | completed (i : ℕ) (err err' : Bool) (k : Call) (ht : s.tasks[i]? = some (.deleted k err'))
      (m : User) (hm : s.session k.client = some m) :
      Next s (.advance i err)
        ((s.drop i).issue { k with currentUser := m } (acceptDeleted k.user m err'))
  | created (i flow : ℕ) (username uid : String)
      (ht : s.tasks[i]? = some (.creating flow username)) (hu : s.accounts uid = none) :
      Next s (.createUser i uid) ((s.drop i).enrol flow username uid)
  | enrollFailed (i flow : ℕ) (u : User) (ht : s.tasks[i]? = some (.enrolling flow u)) :
      Next s (.advance i true) ((s.drop i).record (.completed flow u.uuid))
  | enrolled (i flow : ℕ) (u : User) (ht : s.tasks[i]? = some (.enrolling flow u)) :
      Next s (.advance i false)
        (((s.drop i).write (.setUser u.uuid u.toFireObj)).record (.completed flow u.uuid))

section Steps

variable {s : State}

theorem next_answered {i : ℕ} (err : Bool) {flow c : ℕ} {p : Purpose} {result : Except ManErr User}
    (ht : s.tasks[i]? = some (.answered flow c p result)) :
    Next s (.advance i err) (answered (s.drop i) flow c p result) := by
  cases p with
  | signUp username =>
    simp only [answered]
    split_ifs with hr
    · exact .ended i err _ ht hr
    · exact .free i err flow c username result ht (by simpa using hr)
  | check username =>
    simp only [answered]
    split_ifs with hr
    · exact .checked i err flow c username result ht hr
    · exact .ended i err _ ht (by simpa [Task.Ends] using hr)
  | logIn =>
    cases result with
    | error e => exact .ended i err _ ht trivial
    | ok u =>
      simp only [answered]
      split_ifs with hc
      · exact .ended i err _ ht hc
      · exact .loggedIn i err flow c u ht (by simpa [State.drop] using hc)
  | call op =>
    cases result with
    | error e => exact .ended i err _ ht trivial
    | ok o =>
      simp only [answered]
      cases hm : (s.drop i).session c with
      | none => exact .ended i err _ ht hm
      | some m => exact .called i err ⟨flow, c, op, m, o⟩ ht hm

theorem next_proceed {i : ℕ} (err : Bool) {t : Task} (ht : s.tasks[i]? = some t) :
    Next s (.advance i err) (proceed (s.drop i) err t) := by
  cases t with
  | asked flow c p q =>
    refine .answer i err flow c p q ht _ fun u hu => ?_
    cases err with
    | false => exact hu
    | true => cases hu
  | answered flow c p result => exact next_answered err ht
  | loading flow c uuid =>
    refine .loadAnswer i err flow c uuid ht _ (fun ds hds => ?_) fun he => if_pos he
    cases err with
    | false => exact (Option.some.inj hds).symm
    | true => cases hds
  | loaded flow c answer =>
    simp only [proceed]
    cases hm : (s.drop i).session c with
    | none => exact .ended i err _ ht hm
    | some m => exact .loaded i err flow c answer ht m hm
  | writing k w =>
    cases err with
    | false => exact .stored i k w ht
    | true => exact .ended i true _ ht rfl
  | deleting k =>
    cases err with
    | false => exact .deleteStored i k ht
    | true => exact .deleteFailed i k ht
  | deleted k err' =>
    simp only [proceed]
    cases hm : (s.drop i).session k.client with
    | none => exact .ended i err _ ht hm
    | some m => exact .completed i err err' k ht m hm
  | creating flow username => exact .ended i err _ ht trivial
  | enrolling flow u =>
    cases err with
    | false => exact .enrolled i flow u ht
    | true => exact .enrollFailed i flow u ht

theorem next_step (s : State) (a : Action) : Next s a (step s a) := by
  cases a with
  | signUp c username => exact .lookup (by simp) c _ _ (by simp)
  | logIn c uuid => exact .lookup (by simp) c _ _ (by simp)
  | addUserButtonPressed c un =>
    simp only [step]
    split_ifs
    · exact .lookup (by simp) c _ _ (by simp)
    · exact .stay (by simp)
  | addFwen c ir =>
    simp only [step]
    cases hr : (s.session c).bind fun m => m.friendRequests[ir]? with
    | none => exact .stay (by simp)
    | some r =>
      obtain ⟨m, hm, hr⟩ := Option.bind_eq_some_iff.mp hr
      exact .tapped (by simp) c m r hm (List.mem_of_getElem? hr)
  | ignore c uuid => exact .lookup (by simp) c _ _ (by simp)
  | unfriend c q => exact .lookup (by simp) c _ _ (by simp)
  | block c username => exact .lookup (by simp) c _ _ (by simp)
  | load c =>
    simp only [step]
    cases hm : s.session c with
    | none => exact .stay (by simp)
    | some m => exact .load (by simp) c m hm
  | createUser i uid =>
    simp only [step]
    split
    · exact .created i _ _ uid ‹_› ‹_›
    · exact .stay (by simp)
  | advance i err =>
    simp only [step]
    cases ht : s.tasks[i]? with
    | none => exact .stay fun j err' ha => by cases ha; exact ht
    | some t => exact next_proceed err ht

/-- The tasks that a step adds, with what they come from. -/
inductive Added (s : State) : Action → Task → Prop
  | asked {a : Action} (flow c : ℕ) (p : Purpose) (q : Query) : Added s a (.asked flow c p q)
  | answered (i : ℕ) (err : Bool) (flow c : ℕ) (p : Purpose) (q : Query)
      (ht : s.tasks[i]? = some (.asked flow c p q)) (result : Except ManErr User)
      (hr : ∀ u, result = .ok u → q.answer s.store.users = .ok u) :
      Added s (.advance i err) (.answered flow c p result)
  | loading {a : Action} (flow c : ℕ) (m : User) (hm : s.session c = some m) :
      Added s a (.loading flow c m.uuid)
  | loaded (i : ℕ) (err : Bool) (flow c : ℕ) (uuid : String)
      (ht : s.tasks[i]? = some (.loading flow c uuid)) (answer : Option (List Dict))
      (ha : ∀ ds, answer = some ds → ds = (s.store.friendRequests uuid).entries.map Prod.snd)
      (he : err = true → answer = none) : Added s (.advance i err) (.loaded flow c answer)
  | deleting (i : ℕ) (err : Bool) (k : Call)
      (ht : s.tasks[i]? = some (.answered k.flow k.client (.call k.op) (.ok k.user)))
      (hm : s.session k.client = some k.currentUser) (hop : k.op = .accept) :
      Added s (.advance i err) (.deleting k)
  | issued (i : ℕ) (err : Bool) (k : Call)
      (ht : s.tasks[i]? = some (.answered k.flow k.client (.call k.op) (.ok k.user)))
      (hm : s.session k.client = some k.currentUser) (hop : k.op ≠ .accept) (w : Write)
      (hw : w ∈ (perform k.currentUser k.user k.op).writes) :
      Added s (.advance i err) (.writing k w)
  | deleted (i : ℕ) (err : Bool) (k : Call) (ht : s.tasks[i]? = some (.deleting k)) :
      Added s (.advance i err) (.deleted k err)
  | completed (i : ℕ) (err err' : Bool) (k : Call) (ht : s.tasks[i]? = some (.deleted k err'))
      (m : User) (hm : s.session k.client = some m) (w : Write)
      (hw : w ∈ (acceptDeleted k.user m err').writes) :
      Added s (.advance i err) (.writing { k with currentUser := m } w)
  | creating {a : Action} (flow : ℕ) (username : String) : Added s a (.creating flow username)
  | enrolling {a : Action} (flow : ℕ) (u : User) : Added s a (.enrolling flow u)

theorem mem_tasks_next {s' : State} {a : Action} (hn : Next s a s') {t : Task}
    (ht : t ∈ s'.tasks) : t ∈ s.tasks ∨ Added s a t := by
  have hone : ∀ {ts : List Task} {t₁ : Task}, (∀ t ∈ ts, t ∈ s.tasks) → Added s a t₁ →
      t ∈ ts ++ [t₁] → t ∈ s.tasks ∨ Added s a t := by
    intro ts t₁ hts h₁ ht
    rcases List.mem_append.mp ht with ht | ht
    · exact Or.inl (hts t ht)
    · exact Or.inr (List.mem_singleton.mp ht ▸ h₁)
  have hdrop : ∀ i, ∀ t ∈ (s.drop i).tasks, t ∈ s.tasks := fun _ _ => mem_of_mem_drop
  cases hn with
  | stay hs => exact Or.inl ht
  | lookup ha c p q hp => exact hone (fun _ h => h) (.asked _ c p q) ht
  | tapped ha c m r hm hr => exact hone (fun _ h => h) (.asked _ c _ _) ht
  | load ha c m hm => exact hone (fun _ h => h) (.loading _ c m hm) ht
  | ended i err t₀ h₀ he => exact Or.inl (hdrop i t ht)
  | answer i err flow c p q h₀ result hr =>
    exact hone (hdrop i) (.answered i err flow c p q h₀ result hr) ht
  | free i err flow c username result h₀ hr => exact hone (hdrop i) (.creating flow username) ht
  | loggedIn i err flow c u h₀ hc => exact Or.inl (hdrop i t ht)
  | checked i err flow c username result h₀ hr => exact hone (hdrop i) (.asked flow c _ _) ht
  | called i err k h₀ hm =>
    unfold State.call at ht
    split_ifs at ht with hop
    · exact hone (hdrop i) (.deleting i err k h₀ hm hop) ht
    · refine (List.mem_append.mp ht).imp (hdrop i t) fun ht => ?_
      obtain ⟨w, hw, rfl⟩ := List.mem_map.mp ht
      exact .issued i err k h₀ hm hop w hw
  | loadAnswer i err flow c uuid h₀ answer ha he =>
    exact hone (hdrop i) (.loaded i err flow c uuid h₀ answer ha he) ht
  | loaded i err flow c answer h₀ m hm => exact Or.inl (hdrop i t ht)
  | stored i k w h₀ => exact Or.inl (hdrop i t ht)
  | deleteFailed i k h₀ => exact hone (hdrop i) (.deleted i true k h₀) ht
  | deleteStored i k h₀ => exact hone (hdrop i) (.deleted i false k h₀) ht
  | completed i err err' k h₀ m hm =>
    refine (List.mem_append.mp ht).imp (hdrop i t) fun ht => ?_
    obtain ⟨w, hw, rfl⟩ := List.mem_map.mp ht
    exact .completed i err err' k h₀ m hm w hw
  | created i flow username uid h₀ hu => exact hone (hdrop i) (.enrolling flow _) ht
  | enrollFailed i flow u h₀ => exact Or.inl (hdrop i t ht)
  | enrolled i flow u h₀ => exact Or.inl (hdrop i t ht)

/-- The users that a step assigns to a session, with what they come from. -/
inductive Assigned (s : State) : Action → ℕ → User → Prop
  | loggedIn (i : ℕ) (err : Bool) (flow c : ℕ) (u : User)
      (ht : s.tasks[i]? = some (.answered flow c .logIn (.ok u))) (hc : s.session c = none) :
      Assigned s (.advance i err) c u
  | called (i : ℕ) (err : Bool) (k : Call)
      (ht : s.tasks[i]? = some (.answered k.flow k.client (.call k.op) (.ok k.user)))
      (hm : s.session k.client = some k.currentUser) (hop : k.op ≠ .accept) :
      Assigned s (.advance i err) k.client (perform k.currentUser k.user k.op).currentUser
  | loaded (i : ℕ) (err : Bool) (flow c : ℕ) (answer : Option (List Dict))
      (ht : s.tasks[i]? = some (.loaded flow c answer)) (m : User) (hm : s.session c = some m) :
      Assigned s (.advance i err) c (loadCurrentFriendRequests m answer)
  | completed (i : ℕ) (err err' : Bool) (k : Call) (ht : s.tasks[i]? = some (.deleted k err'))
      (m : User) (hm : s.session k.client = some m) :
      Assigned s (.advance i err) k.client (acceptDeleted k.user m err').currentUser

theorem session_assign (s : State) (c c' : ℕ) (u : User) :
    (s.assign c u).session c' = if c' = c then some u else s.session c' :=
  Function.update_apply s.session c (some u) c'

theorem session_next {s' : State} {a : Action} (hn : Next s a s') (c : ℕ) :
    s'.session c = s.session c ∨ ∃ m, s'.session c = some m ∧ Assigned s a c m := by
  have hassign : ∀ {c' : ℕ} {u : User}, Assigned s a c' u →
      (s.assign c' u).session c = s.session c ∨
        ∃ m, (s.assign c' u).session c = some m ∧ Assigned s a c m := by
    intro c' u ha
    rw [session_assign]
    split_ifs with hc
    · exact Or.inr ⟨u, rfl, hc ▸ ha⟩
    · exact Or.inl rfl
  cases hn with
  | loggedIn i err flow c' u ht hc => exact hassign (.loggedIn i err flow c' u ht hc)
  | called i err k ht hk =>
    unfold State.call
    split_ifs with hop
    · exact Or.inl rfl
    · exact hassign (.called i err k ht hk hop)
  | loaded i err flow c' answer ht m hm => exact hassign (.loaded i err flow c' answer ht m hm)
  | completed i err err' k ht m hm => exact hassign (.completed i err err' k ht m hm)
  | _ => exact Or.inl rfl

/-- A user in memory was there before the step, or the step has put him there. -/
theorem session_of_next {s' : State} {a : Action} (hn : Next s a s') {c : ℕ} {m : User}
    (hm : s'.session c = some m) : s.session c = some m ∨ Assigned s a c m := by
  obtain heq | ⟨m', hm', hassigned⟩ := session_next hn c
  · exact Or.inl (heq ▸ hm)
  · obtain rfl : m' = m := Option.some.inj (hm'.symm.trans hm)
    exact Or.inr hassigned

/-- The `Users` collection changes only when a write of a user document is stored. -/
theorem users_next {s' : State} {a : Action} (hn : Next s a s') :
    s'.store.users = s.store.users ∨
      (∃ i k uuid dict, a = .advance i false ∧
        s.tasks[i]? = some (.writing k (.setUser uuid dict)) ∧
        s'.store.users = s.store.users.set uuid dict) ∨
      ∃ i flow u, a = .advance i false ∧ s.tasks[i]? = some (.enrolling flow u) ∧
        s'.store.users = s.store.users.set u.uuid u.toFireObj := by
  cases hn with
  | stored i k w h₀ =>
    cases w with
    | setUser uuid dict => exact Or.inr (Or.inl ⟨i, k, uuid, dict, rfl, h₀, rfl⟩)
    | setRequest receiver title dict => exact Or.inl rfl
    | deleteRequest receiver title => exact Or.inl rfl
  | enrolled i flow u h₀ => exact Or.inr (Or.inr ⟨i, flow, u, rfl, h₀, rfl⟩)
  | called i err k h₀ hm =>
    unfold State.call
    split_ifs <;> exact Or.inl rfl
  | _ => exact Or.inl rfl

/-- The step of a handled answer that makes a call. -/
theorem step_calls {k : Call} {i : ℕ} {err : Bool}
    (ht : s.tasks[i]? = some (.answered k.flow k.client (.call k.op) (.ok k.user)))
    (hm : s.session k.client = some k.currentUser) :
    step s (.advance i err) = (s.drop i).call k := by
  simp only [step, ht, proceed, answered, State.drop, hm]

@[simp] theorem call_log (s : State) (k : Call) : (s.call k).log = .called k :: s.log := by
  unfold State.call
  split_ifs <;> rfl

/-- The log only grows. -/
theorem log_next {s' : State} {a : Action} (hn : Next s a s') : s.log <:+ s'.log := by
  cases hn with
  | called i err k ht hm =>
    rw [call_log]
    exact List.suffix_cons _ _
  | stored i k w ht => exact List.suffix_cons _ _
  | deleteStored i k ht => exact List.suffix_cons _ _
  | created i flow username uid ht hu => exact List.suffix_cons _ _
  | enrollFailed i flow u ht => exact List.suffix_cons _ _
  | enrolled i flow u ht => exact List.suffix_cons _ _
  | _ => exact List.suffix_rfl

/-- The request collections change only when a write or the delete of an accept is stored. -/
theorem friendRequests_next {s' : State} {a : Action} (hn : Next s a s') :
    s'.store.friendRequests = s.store.friendRequests ∨
      (∃ i k w, a = .advance i false ∧ s.tasks[i]? = some (.writing k w) ∧
        s'.store.friendRequests = (s.store.apply w).friendRequests) ∨
      ∃ i k, a = .advance i false ∧ s.tasks[i]? = some (.deleting k) ∧
        s'.store.friendRequests =
          (s.store.apply (acceptFriendRequest k.user k.currentUser)).friendRequests := by
  cases hn with
  | stored i k w h₀ => exact Or.inr (Or.inl ⟨i, k, w, rfl, h₀, rfl⟩)
  | deleteStored i k h₀ => exact Or.inr (Or.inr ⟨i, k, rfl, h₀, rfl⟩)
  | called i err k h₀ hm =>
    unfold State.call
    split_ifs <;> exact Or.inl rfl
  | _ => exact Or.inl rfl

end Steps

/-! ### Initial states -/

/-- Users with empty friends lists, each under its own uuid and with an account; no requests,
nobody logged in and nothing under way. -/
structure Initial (s : State) : Prop where
  docs : ∀ k d, s.store.users.get? k = some d → ∃ u : User, d = u.toFireObj ∧ u.uuid = k ∧
    s.accounts k = some u.username ∧ u.friends = []
  requests : ∀ receiver, s.store.friendRequests receiver = ∅
  session : ∀ c, s.session c = none
  tasks : s.tasks = []
  log : s.log = []

/-- Freshly signed-up users, given by uuid and username. -/
def signedUp (accounts : List (String × String)) : State where
  store := (Sequential.signedUp accounts).store
  session _ := none
  tasks := []
  accounts := (Sequential.signedUp accounts).store.username
  next := 0
  log := []

/-- The task at index `i` goes on, and so `n` times; no step of the backend fails. -/
def advances (i n : ℕ) : List Action := List.replicate n (.advance i false)

theorem initial_signedUp (accounts : List (String × String)) : Initial (signedUp accounts) where
  docs k d hd := by
    obtain ⟨n, -, rfl⟩ := signedUp_get? hd
    exact ⟨_, rfl, rfl, Store.username_of_get? hd, rfl⟩
  requests _ := rfl
  session _ := rfl
  tasks := rfl
  log := rfl

/-- Ann, Bob and Cat. -/
def abc : State := signedUp [("a", "ann"), ("b", "bob"), ("c", "cat")]

end JamSession.Interleaved
