import JamSession.Interleaved.Identity

/-! Where the names and the requests of the friend system come from. A request that is stored,
loaded, or on its way was sent before; a name in a friends list, stored or in any copy, belongs
to a user with whom an accept was run after a request between the two was sent. The log only
grows, user documents are never removed and a session keeps its user, so what was once
accounted for stays so, and a step has to account only for what it adds. -/

namespace JamSession.Interleaved

open UserController JamSession.Sequential

variable [UIKit]

/-! ### The log -/

/-- `a` sent `b` a friend request: `sendFriendRequest` was called and did not return early. -/
def Requested (log : List Event) (a b : String) : Prop :=
  ∃ k, .called k ∈ log ∧ k.op = .send ∧ k.currentUser.uuid = a ∧ k.user.uuid = b ∧
    k.user.username ∉ k.currentUser.friends

/-- The client of `b` ran `acceptFriendRequest` for a request that `a` had sent. -/
def Consented (log : List Event) (a b : String) : Prop :=
  ∃ k earlier, .called k :: earlier <:+ log ∧ k.op = .accept ∧ k.user.uuid = a ∧
    k.currentUser.uuid = b ∧ Requested earlier a b

section Log

variable {log log' : List Event} {a b : String}

theorem Requested.mono (h : log <:+ log') (hr : Requested log a b) : Requested log' a b := by
  obtain ⟨k, hk, hrest⟩ := hr
  exact ⟨k, h.subset hk, hrest⟩

theorem Consented.mono (h : log <:+ log') (hc : Consented log a b) : Consented log' a b := by
  obtain ⟨k, earlier, hk, hrest⟩ := hc
  exact ⟨k, earlier, hk.trans h, hrest⟩

end Log

/-! ### What is accounted for -/

/-- A user goes by `n` who befriended `u` by consent. -/
def Befriended (s : State) (u n : String) : Prop :=
  ∃ v, s.store.username v = some n ∧ (Consented s.log u v ∨ Consented s.log v u)

/-- A request that `receiver` was sent. -/
structure RequestTo (log : List Event) (receiver : String) (r : FriendRequest) : Prop where
  receivingUser : r.receivingUser = receiver
  requested : Requested log r.initialUser receiver

theorem RequestTo.of_suffix {log log' : List Event} {receiver : String} {r : FriendRequest}
    (hr : RequestTo log receiver r) (h : log <:+ log') : RequestTo log' receiver r :=
  ⟨hr.receivingUser, hr.requested.mono h⟩

/-- A copy of a stored user all of whose friends and requests are accounted for. -/
structure Accounted (s : State) (u : User) : Prop where
  username : s.store.username u.uuid = some u.username
  friends : ∀ n ∈ u.friends, Befriended s u.uuid n
  requests : ∀ r ∈ u.friendRequests, RequestTo s.log u.uuid r

def WriteAccounted (s : State) : Write → Prop
  | .setUser uuid dict => ∃ u : User, dict = u.toFireObj ∧ u.uuid = uuid ∧ u.Known s.accounts ∧
      ∀ n ∈ u.friends, Befriended s uuid n
  | .setRequest receiver title dict => ∃ r : FriendRequest, dict = r.toFireObj ∧
      title = requestTitle r.initialUser receiver ∧ RequestTo s.log receiver r
  | .deleteRequest _ _ => True

/-- The accept of `k` is consented to by the user of its client. -/
structure AcceptAccounted (s : State) (k : Call) : Prop where
  user : Accounted s k.user
  client : LoggedIn s k.client k.currentUser.uuid
  consented : Consented s.log k.user.uuid k.currentUser.uuid

def TaskAccounted (s : State) : Task → Prop
  | .asked _ c p q => p = .call .accept →
      ∃ a uuid, q = .byUuid a ∧ LoggedIn s c uuid ∧ Requested s.log a uuid
  | .answered _ c p result => ∀ o, result = .ok o → Accounted s o ∧
      (p = .call .accept → ∃ uuid, LoggedIn s c uuid ∧ Requested s.log o.uuid uuid)
  | .loading _ c uuid => LoggedIn s c uuid
  | .loaded _ c answer => ∃ uuid, LoggedIn s c uuid ∧ ∀ ds, answer = some ds → ∀ d ∈ ds,
      ∀ r, FriendRequest.fromStringAny d = some r → RequestTo s.log uuid r
  | .writing _ w => WriteAccounted s w
  | .deleting k => AcceptAccounted s k
  | .deleted k _ => AcceptAccounted s k
  | .creating _ _ => True
  | .enrolling _ u => u.Known s.accounts ∧ u.friends = []

/-- Everything in the state is accounted for. -/
structure Sound (s : State) : Prop where
  coherent : s.store.Coherent s.accounts
  friends : ∀ k n, n ∈ s.store.friends k → Befriended s k n
  requests : ∀ receiver title d, (s.store.friendRequests receiver).get? title = some d →
    WriteAccounted s (.setRequest receiver title d)
  session : ∀ c m, s.session c = some m → Accounted s m
  tasks : ∀ t ∈ s.tasks, TaskAccounted s t

/-! ### What stays accounted for -/

section Extends

variable {s s' : State}

theorem Befriended.mono (h : Extends s s') {u n : String} (hb : Befriended s u n) :
    Befriended s' u n := by
  obtain ⟨v, hv, hc⟩ := hb
  exact ⟨v, h.username v n hv, hc.imp (Consented.mono h.log) (Consented.mono h.log)⟩

theorem RequestTo.mono (h : Extends s s') {receiver : String} {r : FriendRequest}
    (hr : RequestTo s.log receiver r) : RequestTo s'.log receiver r :=
  hr.of_suffix h.log

theorem Accounted.mono (h : Extends s s') {u : User} (hu : Accounted s u) : Accounted s' u where
  username := h.username _ _ hu.username
  friends n hn := (hu.friends n hn).mono h
  requests r hr := (hu.requests r hr).mono h

theorem WriteAccounted.mono (h : Extends s s') {w : Write} (hw : WriteAccounted s w) :
    WriteAccounted s' w := by
  cases w with
  | setUser uuid dict =>
    obtain ⟨u, hd, hu, hk, hf⟩ := hw
    exact ⟨u, hd, hu, h.accounts _ _ hk, fun n hn => (hf n hn).mono h⟩
  | setRequest receiver title dict =>
    obtain ⟨r, hd, ht, hr⟩ := hw
    exact ⟨r, hd, ht, hr.mono h⟩
  | deleteRequest receiver title => trivial

theorem AcceptAccounted.mono (h : Extends s s') {k : Call} (hk : AcceptAccounted s k) :
    AcceptAccounted s' k :=
  ⟨hk.user.mono h, h.session _ _ hk.client, hk.consented.mono h.log⟩

theorem TaskAccounted.mono (h : Extends s s') {t : Task} (ht : TaskAccounted s t) :
    TaskAccounted s' t := by
  cases t with
  | asked flow c p q =>
    intro hp
    obtain ⟨a, uuid, hq, hc, hr⟩ := ht hp
    exact ⟨a, uuid, hq, h.session _ _ hc, hr.mono h.log⟩
  | answered flow c p result =>
    intro o ho
    obtain ⟨hacc, hp⟩ := ht o ho
    refine ⟨hacc.mono h, fun hp' => ?_⟩
    obtain ⟨uuid, hc, hr⟩ := hp hp'
    exact ⟨uuid, h.session _ _ hc, hr.mono h.log⟩
  | loading flow c uuid => exact h.session _ _ ht
  | loaded flow c answer =>
    obtain ⟨uuid, hc, hds⟩ := ht
    exact ⟨uuid, h.session _ _ hc, fun ds hds' d hd r hr => (hds ds hds' d hd r hr).mono h⟩
  | writing k w => exact WriteAccounted.mono h ht
  | deleting k => exact AcceptAccounted.mono h ht
  | deleted k err => exact AcceptAccounted.mono h ht
  | creating flow username => trivial
  | enrolling flow u => exact ⟨h.accounts _ _ ht.1, ht.2⟩

end Extends

end JamSession.Interleaved
