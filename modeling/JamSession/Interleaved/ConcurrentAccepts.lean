import Mathlib.Data.Fintype.Defs
import JamSession.Interleaved.Identity
import JamSession.Firestore.PlainKit

/-! Several users accept requests of one user at the same time. Each accept fetches his
document, waits for its delete and writes the fetched copy back with one name more. A name
that another accept stored in between is lost; while no document of his is stored from a copy
that misses a stored receiver, every receiver and he end up in each other's lists. Until then
each receiver's accept still has its two names to store: it is before its completion, or the
names are stored or on their way. -/

namespace JamSession.Interleaved

open UserController JamSession.Sequential

section

variable [UIKit]

/-- Clients `cs` have each begun to accept a request of the user `a`, whose username is `n`;
nothing else is under way. -/
structure Accepting (a n : String) (cs : List ℕ) (s : State) : Prop where
  coherent : s.store.Coherent s.accounts
  session : ∀ c m, s.session c = some m → Documented s m
  name : s.accounts a = some n
  nodup : cs.Nodup
  pending : ∀ c ∈ cs, ∃ m, s.session c = some m ∧ ⟨a, m.uuid⟩ ∈ m.friendRequests
  tasks : ∃ flow : ℕ → ℕ,
    s.tasks = cs.map fun c => .asked (flow c) c (.call .accept) (.byUuid a)

/-- When no flow is left, every receiver and the user they accepted list each other. -/
def AcceptsKept (a n : String) (cs : List ℕ) (s s' : State) : Prop :=
  s'.tasks = [] → ∀ c ∈ cs, ∀ m, s.session c = some m →
    m.username ∈ s'.store.friends a ∧ n ∈ s'.store.friends m.uuid

/-- The answer of a lookup that found nobody. -/
def Task.failed : Task → Bool
  | .answered _ _ _ (.error _) => true
  | _ => false

/-- A step of the flows in which nothing fails, the lookups included. -/
def WithoutError (s : State) : Action → Prop
  | .advance i false => ∀ t ∈ s.tasks[i]?, t.failed = false
  | _ => False

/-- The condition on a step. When a document of `a` is stored, the copy it was made of lists
every other receiver that the stored document lists; and an accept of a user who is a friend
already, which stores nothing, finds the two in each other's stored lists. -/
def KeepsReceivers (a n : String) (cs : List ℕ) (s : State) : Action → Prop
  | .advance i false => match s.tasks[i]? with
    | some (.writing k (.setUser uuid _)) => uuid = a → ∀ p ∈ k.copies, p.1.uuid = a →
        ∀ c ∈ cs, c ≠ k.client → ∀ m ∈ s.session c,
          m.username ∈ s.store.friends a → m.username ∈ p.1.friends
    | some (.deleted k _) => ∀ m ∈ s.session k.client, n ∈ m.friends →
        m.username ∈ s.store.friends a ∧ n ∈ s.store.friends m.uuid
    | _ => True
  | _ => True

instance (s : State) (act : Action) : Decidable (WithoutError s act) := by
  unfold WithoutError
  split <;> infer_instance

instance (a n : String) (cs : List ℕ) (s : State) (act : Action) :
    Decidable (KeepsReceivers a n cs s act) := by
  induction act using Action.casesOn with
  | advance i err =>
    induction err using Bool.casesOn with
    | true => exact instDecidableTrue
    | false =>
      dsimp only [KeepsReceivers]
      generalize s.tasks[i]? = o
      induction o using Option.casesOn with
      | none => exact instDecidableTrue
      | some t =>
        induction t using Task.casesOn with
        | writing k w => induction w using Write.casesOn <;> infer_instance
        | _ => infer_instance
  | _ => exact instDecidableTrue

/-! ### A step of an accept -/

/-- The task belongs to an accept that has not failed, of a client that is logged in. -/
def Task.InAccept (s : State) : Task → Prop
  | .asked _ _ p _ => p = .call .accept
  | .answered _ c p _ => p = .call .accept ∧ s.session c ≠ none
  | .deleted k err => err = false ∧ s.session k.client ≠ none
  | .deleting _ | .writing _ _ => True
  | _ => False

/-- What a step can do when only accepts are under way and nothing fails. -/
inductive AcceptStep (s : State) (i : ℕ) : State → Prop
  | stay : AcceptStep s i s
  | answer (flow c : ℕ) (q : Query) (ht : s.tasks[i]? = some (.asked flow c (.call .accept) q))
      (result : Except ManErr User) (hr : ∀ u, result = .ok u → q.answer s.store.users = .ok u) :
      AcceptStep s i ((s.drop i).add (.answered flow c (.call .accept) result))
  | called (k : Call)
      (ht : s.tasks[i]? = some (.answered k.flow k.client (.call .accept) (.ok k.user)))
      (hm : s.session k.client = some k.currentUser) :
      AcceptStep s i (((s.drop i).record (.called k)).add (.deleting k))
  | deleteStored (k : Call) (ht : s.tasks[i]? = some (.deleting k)) :
      AcceptStep s i ((((s.drop i).write (acceptFriendRequest k.user k.currentUser)).record
        (.stored k (acceptFriendRequest k.user k.currentUser))).add (.deleted k false))
  | completed (k : Call) (ht : s.tasks[i]? = some (.deleted k false)) (m : User)
      (hm : s.session k.client = some m) : AcceptStep s i
        ((s.drop i).issue { k with currentUser := m } (acceptDeleted k.user m false))
  | stored (k : Call) (w : Write) (ht : s.tasks[i]? = some (.writing k w)) :
      AcceptStep s i (((s.drop i).write w).record (.stored k w))

theorem acceptStep_of_next {s s' : State} {i : ℕ} (h : ∀ t ∈ s.tasks, t.InAccept s)
    (herr : WithoutError s (.advance i false)) (hn : Next s (.advance i false) s') :
    AcceptStep s i s' := by
  have hof : ∀ {t : Task}, s.tasks[i]? = some t → t.InAccept s := fun ht =>
    h _ (List.mem_of_getElem? ht)
  cases hn with
  | stay hs => exact .stay
  | answer i err flow c p q ht result hr =>
    obtain rfl : p = .call .accept := hof ht
    exact .answer flow c q ht result hr
  | called i err k ht hm =>
    have hop : k.op = .accept := Purpose.call.inj (hof ht).1
    rw [State.call, if_pos hop]
    exact .called k (hop ▸ ht) hm
  | deleteStored i k ht => exact .deleteStored k ht
  | completed i err err' k ht m hm =>
    obtain ⟨rfl, -⟩ := hof ht
    exact .completed k ht m hm
  | stored i k w ht => exact .stored k w ht
  | ended i err t ht he =>
    have hin := hof ht
    cases t with
    | answered flow c p result =>
      obtain ⟨rfl, hc⟩ := hin
      cases result with
      | error e => exact absurd (herr _ ht) (by simp [Task.failed])
      | ok o => exact absurd he hc
    | deleted k err => exact absurd he hin.2
    | writing k w => cases he
    | asked flow c p q => cases he
    | deleting k => cases he
    | loading flow c uuid => cases hin
    | loaded flow c answer => cases hin
    | creating flow username => cases hin
    | enrolling flow u => cases hin
  | lookup ha c p q hp => exact absurd rfl (ha i false)
  | tapped ha c m r hm hr => exact absurd rfl (ha i false)
  | load ha c m hm => exact absurd rfl (ha i false)
  | free i err flow c username result ht hr => cases (hof ht).1
  | loggedIn i err flow c u ht hc => cases (hof ht).1
  | checked i err flow c username result ht hr => cases (hof ht).1
  | loadAnswer i err flow c uuid ht answer ha => cases hof ht
  | loaded i err flow c answer ht m hm => cases hof ht
  | enrolled i flow u ht => cases hof ht

/-! ### The flows under way -/

/-- The client of an accept before its completion. -/
def Task.accepting : Task → Option ℕ
  | .asked _ c _ _ | .answered _ c _ _ => some c
  | .deleting k | .deleted k _ => some k.client
  | _ => none

/-- The name is stored in the list of `uuid`, or a write of the client is to store it. -/
def Listed (s : State) (c : ℕ) (uuid name : String) : Prop :=
  name ∈ s.store.friends uuid ∨ ∃ (k : Call) (u : User), .writing k (.setUser uuid u.toFireObj) ∈ s.tasks ∧
    k.client = c ∧ name ∈ u.friends

/-- The task belongs to an accept of a request of `a` by one of the clients. -/
def OfAccept (s : State) (a : String) (cs : List ℕ) : Task → Prop
  | .asked _ c p q => c ∈ cs ∧ p = .call .accept ∧ q = .byUuid a
  | .answered _ c p result => c ∈ cs ∧ p = .call .accept ∧ ∀ o, result = .ok o → o.uuid = a
  | .deleting k => k.client ∈ cs ∧ k.user.uuid = a
  | .deleted k err => k.client ∈ cs ∧ k.user.uuid = a ∧ err = false
  | .writing k _ => k.client ∈ cs ∧ k.user.uuid = a ∧ k.op = .accept ∧ Documented s k.user ∧
      Documented s k.currentUser ∧ LoggedIn s k.client k.currentUser.uuid
  | _ => False

structure Underway (a n : String) (cs : List ℕ) (s : State) : Prop where
  identified : Identified s
  issued : AllIssued s
  name : s.accounts a = some n
  tasks : ∀ t ∈ s.tasks, OfAccept s a cs t
  nodup : (s.tasks.filterMap Task.accepting).Nodup
  pending : ∀ c ∈ s.tasks.filterMap Task.accepting, ∃ m, s.session c = some m ∧
    ⟨a, m.uuid⟩ ∈ m.friendRequests
  owes : ∀ c ∈ cs, ∀ m, s.session c = some m → c ∈ s.tasks.filterMap Task.accepting ∨
    Listed s c a m.username ∧ Listed s c m.uuid n

variable {a n : String} {cs : List ℕ} {s s' : State}

theorem OfAccept.mono (h : Extends s s') {t : Task} (ht : OfAccept s a cs t) :
    OfAccept s' a cs t := by
  cases t with
  | writing k w =>
    obtain ⟨hc, hu, hop, ho, hm, hl⟩ := ht
    exact ⟨hc, hu, hop, ho.mono h, hm.mono h, h.session _ _ hl⟩
  | asked flow c p q => exact ht
  | answered flow c p result => exact ht
  | deleting k => exact ht
  | deleted k err => exact ht
  | loading flow c uuid => exact ht
  | loaded flow c answer => exact ht
  | creating flow username => exact ht
  | enrolling flow u => exact ht

/-- The name that the directory has for a stored user. -/
theorem Underway.username_eq (h : Underway a n cs s) {u : User} (hu : Documented s u)
    (ha : u.uuid = a) : u.username = n := by
  have hk := h.identified.coherent.username hu
  rw [ha, h.name] at hk
  exact (Option.some.inj hk).symm

theorem LoggedIn.unique {c : ℕ} {u v : String} (hu : LoggedIn s c u) (hv : LoggedIn s c v) :
    u = v := by
  obtain ⟨m, hm, rfl⟩ := hu
  obtain ⟨m', hm', rfl⟩ := hv
  rw [hm, Option.some.injEq] at hm'
  rw [hm']

/-- The identities are kept by every step. -/
theorem Underway.of_next (h : Underway a n cs s) {act : Action} (hn : Next s act s')
    (htasks : ∀ t ∈ s'.tasks, OfAccept s' a cs t)
    (hnodup : (s'.tasks.filterMap Task.accepting).Nodup)
    (hpending : ∀ c ∈ s'.tasks.filterMap Task.accepting, ∃ m, s'.session c = some m ∧
      ⟨a, m.uuid⟩ ∈ m.friendRequests)
    (howes : ∀ c ∈ cs, ∀ m, s'.session c = some m → c ∈ s'.tasks.filterMap Task.accepting ∨
      Listed s' c a m.username ∧ Listed s' c m.uuid n) : Underway a n cs s' := by
  have hext := h.identified.extends hn
  exact ⟨h.identified.next h.issued hn, h.issued.next hn, hext.accounts _ _ h.name,
    htasks, hnodup, hpending, howes⟩

/-- A write other than the task that went on is still on its way. -/
theorem Listed.mono {c : ℕ} {uuid name : String} {t : Task} {i : ℕ} (hl : Listed s c uuid name)
    (ht : s.tasks[i]? = some t) (hw : ∀ k w, t ≠ .writing k w)
    (hstore : s'.store.friends = s.store.friends)
    (htasks : ∀ t ∈ (s.drop i).tasks, t ∈ s'.tasks) : Listed s' c uuid name := by
  obtain hl | ⟨k, u, hmem, hk, hu⟩ := hl
  · exact Or.inl (hstore ▸ hl)
  · rcases List.mem_cons.mp ((perm_drop ht).mem_iff.mp hmem) with heq | hmem
    · exact absurd heq.symm (hw _ _)
    · exact Or.inr ⟨k, u, htasks _ hmem, hk, hu⟩

/-- An accept goes on to its next callback. -/
theorem Underway.moved (h : Underway a n cs s) {act : Action} (hn : Next s act s') {i c : ℕ}
    {t t' : Task} (ht : s.tasks[i]? = some t) (hc : t.accepting = some c)
    (hc' : t'.accepting = some c) (htasks : s'.tasks = (s.drop i).tasks ++ [t'])
    (hsession : s'.session = s.session) (hstore : s'.store.friends = s.store.friends)
    (hof : OfAccept s' a cs t') : Underway a n cs s' := by
  have hext := h.identified.extends hn
  have hperm : (s'.tasks.filterMap Task.accepting).Perm (s.tasks.filterMap Task.accepting) := by
    have hcons := (perm_drop ht).filterMap Task.accepting
    rw [List.filterMap_cons_some hc] at hcons
    rw [htasks, List.filterMap_append, List.filterMap_cons_some hc', List.filterMap_nil]
    exact List.perm_append_comm.trans hcons.symm
  have hnot : ∀ k w, t ≠ .writing k w := by
    rintro k w rfl
    cases hc
  refine h.of_next hn (fun t₀ ht₀ => ?_) (hperm.nodup_iff.mpr h.nodup) (fun c₀ hc₀ => ?_)
    fun c₀ hc₀ m hm => ?_
  · rw [htasks] at ht₀
    rcases List.mem_append.mp ht₀ with ht₀ | ht₀
    · exact (h.tasks t₀ (mem_of_mem_drop ht₀)).mono hext
    · exact List.mem_singleton.mp ht₀ ▸ hof
  · rw [hsession]
    exact h.pending c₀ (hperm.mem_iff.mp hc₀)
  · rw [hsession] at hm
    have hrest : ∀ t₀ ∈ (s.drop i).tasks, t₀ ∈ s'.tasks := fun t₀ ht₀ => by
      rw [htasks]
      exact List.mem_append_left _ ht₀
    obtain hmem | ⟨hl, hl'⟩ := h.owes c₀ hc₀ m hm
    · exact Or.inl (hperm.mem_iff.mpr hmem)
    · exact Or.inr ⟨hl.mono ht hnot hstore hrest, hl'.mono ht hnot hstore hrest⟩

/-- A completion that appends has both names on their way. -/
theorem listed_completed (s : State) {k : Call} {m : User} (hua : k.user.uuid = a)
    (hname : k.user.username = n) (hf : n ∉ m.friends) (hr : ⟨a, m.uuid⟩ ∈ m.friendRequests) :
    Listed (s.issue { k with currentUser := m } (acceptDeleted k.user m false)) k.client a
        m.username ∧
      Listed (s.issue { k with currentUser := m } (acceptDeleted k.user m false)) k.client
        m.uuid n := by
  rw [acceptDeleted_pending (hname ▸ hf) (hua ▸ hr)]
  have hwrite : ∀ {out : Outcome}, ∀ w ∈ out.writes, .writing { k with currentUser := m } w ∈
      (s.issue { k with currentUser := m } out).tasks := fun w hw =>
    List.mem_append_right _ (List.mem_map.mpr ⟨w, hw, rfl⟩)
  constructor
  · refine Or.inr ⟨_, k.user.addFriend m.username, hwrite _ ?_, rfl, ?_⟩
    · exact List.mem_append_left _ (mem_saveUser.mpr ⟨hua.symm, rfl⟩)
    · exact List.mem_append_right _ (List.mem_singleton_self _)
  · refine Or.inr ⟨_, (m.addFriend k.user.username).removeRequest ⟨k.user.uuid, m.uuid⟩,
      hwrite _ ?_, rfl, ?_⟩
    · exact List.mem_append_right _ (mem_saveUser.mpr ⟨rfl, rfl⟩)
    · rw [← hname]
      exact List.mem_append_right _ (List.mem_singleton_self _)

/-- The completion of an accept appends both names, unless the user is a friend already. -/
theorem Underway.completed (h : Underway a n cs s) {i : ℕ} {k : Call} {m : User}
    (ht : s.tasks[i]? = some (.deleted k false)) (hm : s.session k.client = some m)
    (hC : n ∈ m.friends → m.username ∈ s.store.friends a ∧ n ∈ s.store.friends m.uuid)
    (hn : Next s (.advance i false)
      ((s.drop i).issue { k with currentUser := m } (acceptDeleted k.user m false))) :
    Underway a n cs
      ((s.drop i).issue { k with currentUser := m } (acceptDeleted k.user m false)) := by
  have hext := h.identified.extends hn
  have hmem := List.mem_of_getElem? ht
  obtain ⟨hcs, hua, -⟩ := h.tasks _ hmem
  have ho : Documented s k.user := h.identified.tasks _ hmem
  have hdm := h.identified.session _ m hm
  have hop : k.op = .accept := h.issued _ hmem
  have hperm := (perm_drop ht).filterMap Task.accepting
  rw [List.filterMap_cons_some (f := Task.accepting) (b := k.client) rfl] at hperm
  have hnodup := List.nodup_cons.mp (hperm.nodup_iff.mp h.nodup)
  set out := acceptDeleted k.user m false with hout
  set s' := (s.drop i).issue { k with currentUser := m } out with hs'
  have hlist : s'.tasks.filterMap Task.accepting = (s.drop i).tasks.filterMap Task.accepting := by
    rw [hs', State.issue, List.filterMap_append, List.filterMap_map]
    simp [Function.comp_def, Task.accepting]
  have hother : ∀ c, c ≠ k.client → s'.session c = s.session c := fun c hc => by
    simp [hs', State.issue, State.assign, hc, State.drop]
  have hself : s'.session k.client = some out.currentUser := by
    simp [hs', State.issue, State.assign]
  refine h.of_next hn (fun t ht' => ?_) (hlist ▸ hnodup.2) (fun c hc => ?_) fun c hc m' hm' => ?_
  · rcases List.mem_append.mp ht' with ht' | ht'
    · exact (h.tasks t (mem_of_mem_drop ht')).mono hext
    · obtain ⟨w, -, rfl⟩ := List.mem_map.mp ht'
      exact ⟨hcs, hua, hop, ho.mono hext, hdm.mono hext, hext.session _ _ ⟨m, hm, rfl⟩⟩
  · rw [hlist] at hc
    have hne : c ≠ k.client := fun he => hnodup.1 (he ▸ hc)
    rw [hother c hne]
    exact h.pending c (hperm.mem_iff.mpr (List.mem_cons_of_mem _ hc))
  · by_cases hck : c = k.client
    · subst hck
      rw [hself, Option.some.injEq] at hm'
      subst hm'
      obtain ⟨huuid, huser⟩ := acceptDeleted_identity k.user m false
      rw [← hout] at huuid huser
      rw [huuid, huser]
      refine Or.inr ?_
      have hname : k.user.username = n := h.username_eq ho hua
      by_cases hf : n ∈ m.friends
      · exact ⟨Or.inl (hC hf).1, Or.inl (hC hf).2⟩
      · obtain ⟨m₀, hm₀, hr⟩ := h.pending k.client (hperm.mem_iff.mpr List.mem_cons_self)
        rw [hm, Option.some.injEq] at hm₀
        subst hm₀
        exact listed_completed (s.drop i) hua hname hf hr
    · rw [hother c hck] at hm'
      obtain hmem' | ⟨hl, hl'⟩ := h.owes c hc m' hm'
      · rcases List.mem_cons.mp (hperm.mem_iff.mp hmem') with he | hmem'
        · exact absurd he hck
        · exact Or.inl (hlist ▸ hmem')
      · have hrest : ∀ t ∈ (s.drop i).tasks, t ∈ s'.tasks :=
          fun t ht => List.mem_append_left _ ht
        exact Or.inr ⟨hl.mono ht (by simp) rfl hrest, hl'.mono ht (by simp) rfl hrest⟩

/-- A stored write leaves a name listed when the document that it stores lists it. -/
theorem Listed.stored {c i : ℕ} {uuid name : String} {k : Call} {w : Write}
    (hl : Listed s c uuid name) (ht : s.tasks[i]? = some (.writing k w))
    (hkeep : ∀ dict, w = .setUser uuid dict → name ∈ s.store.friends uuid →
      ∃ u : User, dict = u.toFireObj ∧ name ∈ u.friends) :
    Listed (((s.drop i).write w).record (.stored k w)) c uuid name := by
  obtain hl | ⟨k', u, hmem, hk, hu⟩ := hl
  · refine Or.inl ?_
    by_cases hw : ∃ dict, w = .setUser uuid dict
    · obtain ⟨dict, rfl⟩ := hw
      obtain ⟨u, rfl, hu⟩ := hkeep dict rfl hl
      simpa [State.record, State.write, Store.apply_setUser_friends] using hu
    · have hother := s.store.apply_friends_of_ne fun dict he => hw ⟨dict, he⟩
      exact hother.symm ▸ hl
  · rcases List.mem_cons.mp ((perm_drop ht).mem_iff.mp hmem) with heq | hmem
    · obtain ⟨-, rfl⟩ := Task.writing.inj heq
      refine Or.inl ?_
      simpa [State.record, State.write, Store.apply_setUser_friends] using hu
    · exact Or.inr ⟨k', u, hmem, hk, hu⟩

theorem Underway.stored (h : Underway a n cs s) {i : ℕ} {k : Call} {w : Write}
    (ht : s.tasks[i]? = some (.writing k w)) (hC : KeepsReceivers a n cs s (.advance i false))
    (hn : Next s (.advance i false) (((s.drop i).write w).record (.stored k w))) :
    Underway a n cs (((s.drop i).write w).record (.stored k w)) := by
  have hext := h.identified.extends hn
  have hmem := List.mem_of_getElem? ht
  obtain ⟨-, hua, hop, ho, hm, hl⟩ := h.tasks _ hmem
  have hname : k.user.username = n := h.username_eq ho hua
  have hperm : (s.tasks.filterMap Task.accepting).Perm
      ((s.drop i).tasks.filterMap Task.accepting) := (perm_drop ht).filterMap Task.accepting
  -- a document that the call stores lists the name it adds, after those of the copy
  have hdoc : ∀ uuid dict, w = .setUser uuid dict → ∃ (u : User) (p : User × String),
      p ∈ k.copies ∧ dict = u.toFireObj ∧ p.1.uuid = uuid ∧ u.friends = p.1.friends ++ [p.2] := by
    rintro uuid dict rfl
    obtain ⟨u, p, hp, hd, hu, he⟩ := k.saves (h.issued _ hmem)
    refine ⟨u, p, hp, hd, by rw [← he.uuid, hu], ?_⟩
    rw [he.friends, hop]
    rfl
  have hkeepA : ∀ c ∈ cs, ∀ m, s.session c = some m → ∀ dict, w = .setUser a dict →
      m.username ∈ s.store.friends a → ∃ u : User, dict = u.toFireObj ∧ m.username ∈ u.friends := by
    rintro c hc m hm' dict rfl hmem'
    obtain ⟨u, p, hp, hd, hpa, hf⟩ := hdoc a dict rfl
    refine ⟨u, hd, ?_⟩
    rw [hf]
    by_cases hck : c = k.client
    · have huuid : k.currentUser.uuid = m.uuid := hl.unique (hck ▸ ⟨m, hm', rfl⟩)
      have huser : k.currentUser.username = m.username := by
        have hdm := h.identified.session c m hm'
        rw [Documented, ← huuid, hm] at hdm
        exact Option.some.inj hdm
      refine List.mem_append_right _ (List.mem_singleton.mpr ?_)
      obtain rfl | rfl := Call.mem_copies.mp hp
      · rw [← huser, h.username_eq hm hpa, hname]
      · exact huser.symm
    · simp only [KeepsReceivers, ht] at hC
      exact List.mem_append_left _ (hC trivial p hp hpa c hc hck m hm' hmem')
  refine h.of_next hn (fun t ht' => (h.tasks t (mem_of_mem_drop ht')).mono hext)
    (hperm.nodup_iff.mp h.nodup) (fun c hc => h.pending c (hperm.mem_iff.mpr hc)) fun c hc m hm' => ?_
  obtain hmem' | ⟨hla, hlm⟩ := h.owes c hc m hm'
  · exact Or.inl (hperm.mem_iff.mp hmem')
  · refine Or.inr ⟨hla.stored ht (hkeepA c hc m hm'), hlm.stored ht fun dict hw hmem' => ?_⟩
    by_cases hma : m.uuid = a
    · rw [hma] at hw hmem'
      have hmn := h.username_eq (h.identified.session c m hm') hma
      rw [← hmn] at hmem' ⊢
      exact hkeepA c hc m hm' dict hw hmem'
    · obtain ⟨u, p, hp, hd, hpm, hf⟩ := hdoc _ dict hw
      refine ⟨u, hd, ?_⟩
      rw [hf]
      obtain rfl | rfl := Call.mem_copies.mp hp
      · rw [hname]
        exact List.mem_append_right _ (List.mem_singleton_self _)
      · exact absurd (hpm.symm.trans hua) hma

theorem Underway.next (h : Underway a n cs s) {act : Action} (herr : WithoutError s act)
    (hC : KeepsReceivers a n cs s act) (hn : Next s act s') : Underway a n cs s' := by
  obtain ⟨i, rfl⟩ : ∃ i, act = .advance i false := by
    unfold WithoutError at herr
    split at herr
    · exact ⟨_, rfl⟩
    · exact herr.elim
  have hflow : ∀ t ∈ s.tasks, t.InAccept s := by
    intro t ht
    have hof := h.tasks t ht
    have hsession : ∀ c, t.accepting = some c → s.session c ≠ none := by
      intro c hc hnone
      obtain ⟨m, hm, -⟩ := h.pending c (List.mem_filterMap.mpr ⟨t, ht, hc⟩)
      rw [hnone] at hm
      cases hm
    cases t with
    | asked flow c p q => exact hof.2.1
    | answered flow c p result => exact ⟨hof.2.1, hsession c rfl⟩
    | deleting k => trivial
    | deleted k err => exact ⟨hof.2.2, hsession k.client rfl⟩
    | writing k w => trivial
    | loading flow c uuid => cases hof
    | loaded flow c answer => cases hof
    | creating flow username => cases hof
    | enrolling flow u => cases hof
  cases acceptStep_of_next hflow herr hn with
  | stay => exact h
  | answer flow c q ht result hr =>
    obtain ⟨hc, -, rfl⟩ := h.tasks _ (List.mem_of_getElem? ht)
    refine h.moved hn ht rfl rfl rfl rfl rfl ⟨hc, rfl, fun o ho => ?_⟩
    exact h.identified.coherent.answer_uuid (hr o ho)
  | called k ht hm =>
    obtain ⟨hc, -, ho⟩ := h.tasks _ (List.mem_of_getElem? ht)
    exact h.moved hn ht rfl rfl rfl rfl rfl ⟨hc, ho _ rfl⟩
  | deleteStored k ht =>
    obtain ⟨hc, hu⟩ := h.tasks _ (List.mem_of_getElem? ht)
    exact h.moved hn ht rfl rfl rfl rfl rfl ⟨hc, hu, rfl⟩
  | completed k ht m hm =>
    simp only [KeepsReceivers, ht] at hC
    exact h.completed ht hm (hC m hm) hn
  | stored k w ht => exact h.stored ht hC hn

/-! ### Runs -/

theorem Accepting.underway (h : Accepting a n cs s) : Underway a n cs s := by
  obtain ⟨flow, htasks⟩ := h.tasks
  have hlist : s.tasks.filterMap Task.accepting = cs := by
    rw [htasks, List.filterMap_map]
    simp [Function.comp_def, Task.accepting]
  have hasked : ∀ t ∈ s.tasks, ∃ c ∈ cs, t = .asked (flow c) c (.call .accept) (.byUuid a) := by
    intro t ht
    rw [htasks] at ht
    obtain ⟨c, hc, rfl⟩ := List.mem_map.mp ht
    exact ⟨c, hc, rfl⟩
  have hnone : s.tasks.filterMap Task.enrols = [] := by
    rw [List.filterMap_eq_nil_iff]
    intro t ht
    obtain ⟨c, -, rfl⟩ := hasked t ht
    rfl
  refine ⟨⟨h.coherent, h.session, fun t ht => ?_, ?_, ?_⟩, fun t ht => ?_, h.name, fun t ht => ?_,
    hlist ▸ h.nodup, hlist.symm ▸ h.pending, fun c hc m hm => Or.inl (hlist ▸ hc)⟩
  · obtain ⟨c, -, rfl⟩ := hasked t ht
    trivial
  · simp [hnone]
  · simp [hnone]
  · obtain ⟨c, -, rfl⟩ := hasked t ht
    trivial
  · obtain ⟨c, hc, rfl⟩ := hasked t ht
    exact ⟨hc, rfl, rfl⟩

/-- When no flow is left, every receiver and the origin list each other, unless a document of
the origin was stored from a copy that missed a receiver. -/
theorem acceptsKept_of_steps {a n : String} {cs : List ℕ} {s : State} (hs : Accepting a n cs s)
    (acts : List Action) (herr : Runs.Each step WithoutError s acts)
    (h : Runs.Each step (KeepsReceivers a n cs) s acts) :
    AcceptsKept a n cs s (Runs.run step s acts) := by
  have hinit : Underway a n cs s ∧ Extends s s := ⟨hs.underway, Extends.tasks s s.tasks s.next⟩
  obtain ⟨hend, hext⟩ := Runs.run_of_each (I := fun t => Underway a n cs t ∧ Extends s t)
    (fun t act ht hC => ⟨ht.1.next hC.1 hC.2 (next_step t act),
      ht.2.trans (ht.1.identified.extends (next_step t act))⟩) hinit (herr.and h)
  intro hdone c hc m hm
  obtain ⟨m', hm', huuid⟩ := hext.session c m.uuid ⟨m, hm, rfl⟩
  have huser : m'.username = m.username := by
    have hdoc := hext.username _ _ (hs.session c m hm)
    rw [← huuid, hend.identified.session c m' hm'] at hdoc
    exact Option.some.inj hdoc
  have hstored : ∀ uuid name, Listed (Runs.run step s acts) c uuid name →
      name ∈ (Runs.run step s acts).store.friends uuid := by
    rintro uuid name (hl | ⟨k, u, hmem, -⟩)
    · exact hl
    · rw [hdone] at hmem
      cases hmem
  obtain hmem | ⟨hl, hl'⟩ := hend.owes c hc m' hm'
  · rw [hdone] at hmem
    cases hmem
  · rw [← huuid, ← huser]
    exact ⟨hstored _ _ hl, hstored _ _ hl'⟩

end

open PlainKit

/-- Ann sends requests to Bob and Cat, whose clients load and tap them. -/
def twoRequests : List Action := List.flatten [
  [.logIn 0 "a", .logIn 1 "b", .logIn 2 "c"], advances 0 6,
  [.addUserButtonPressed 0 "bob"], advances 0 5, [.addUserButtonPressed 0 "cat"], advances 0 5,
  [.load 1, .load 2], advances 0 4, [.addFwen 1 0, .addFwen 2 0]]

theorem accepting_twoRequests : Accepting "a" "ann" [1, 2] (Runs.run step abc twoRequests) where
  coherent := ((initial_signedUp _).start.identified_run twoRequests).coherent
  session := ((initial_signedUp _).start.identified_run twoRequests).session
  name := by decide +kernel
  nodup := by decide
  pending := by decide +kernel
  tasks := ⟨fun c => c + 6, rfl⟩

/-- Every callback waits for its turn, so both lookups are answered before the first write. -/
theorem accepting_inTurn_loses :
    Accepting "a" "ann" [1, 2] (Runs.run step abc twoRequests) ∧
      Runs.Each step WithoutError (Runs.run step abc twoRequests) (advances 0 12) ∧
      (Runs.run step (Runs.run step abc twoRequests) (advances 0 12)).store.friends "a" = ["cat"] ∧
      ¬ AcceptsKept "a" "ann" [1, 2] (Runs.run step abc twoRequests)
        (Runs.run step (Runs.run step abc twoRequests) (advances 0 12)) := by
  have hfriends : (Runs.run step (Runs.run step abc twoRequests)
      (advances 0 12)).store.friends "a" = ["cat"] := by decide +kernel
  refine ⟨accepting_twoRequests, by decide +kernel, hfriends, fun h => ?_⟩
  have hbob : ∃ m, (Runs.run step abc twoRequests).session 1 = some m :=
    Option.isSome_iff_exists.mp (by decide +kernel)
  obtain ⟨m, hm⟩ := hbob
  have hname : ∀ m ∈ (Runs.run step abc twoRequests).session 1, m.username = "bob" := by
    decide +kernel
  have hkept := (h (List.length_eq_zero_iff.mp (by decide +kernel)) 1 (by decide) m hm).1
  rw [hname m hm, hfriends] at hkept
  exact absurd hkept (by decide)

/-- Cat's lookup is answered after Bob's accept is stored. -/
theorem acceptsKept_of_steps_oneAfterOther :
    (Runs.run step (Runs.run step abc twoRequests)
      (advances 0 1 ++ advances 1 5 ++ advances 0 6)).tasks.length = 0 ∧
      AcceptsKept "a" "ann" [1, 2] (Runs.run step abc twoRequests)
        (Runs.run step (Runs.run step abc twoRequests)
          (advances 0 1 ++ advances 1 5 ++ advances 0 6)) :=
  ⟨by decide +kernel,
    acceptsKept_of_steps accepting_twoRequests _ (by decide +kernel) (by decide +kernel)⟩

end JamSession.Interleaved
