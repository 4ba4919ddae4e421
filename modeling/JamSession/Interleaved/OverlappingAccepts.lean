import JamSession.Interleaved.AtOnce
import JamSession.Interleaved.ConcurrentAccepts
import JamSession.Sequential.Undoing

/-! Overlapping accepts of one request. Each tap on its row starts a flow with its own copy of
the sender, fetched when its lookup is answered. Until the first completion no document is
written, so all copies are the same; that completion appends both names, and every later one
finds the sender's name in memory and skips, whatever copy it holds. So the documents on their
way are those of the first completion alone, and they are stored once each. -/

namespace JamSession.Interleaved

open UserController JamSession.Sequential

section

variable [UIKit]

/-- Client `c` of the user `m` has begun one or more accepts of the request of `a`, whose
username is `n`; nothing else is under way. The memory of the client agrees with the stored
document, and neither user lists the other. -/
structure Tapped (c : ℕ) (m : User) (a n : String) (s : State) : Prop where
  coherent : s.store.Coherent s.store.username
  session : s.session c = some m
  document : ∃ d, s.store.users.get? m.uuid = some d ∧ SameButPicture d m.toFireObj
  origin : s.store.username a = some n
  strangers : n ∉ m.friends ∧ m.username ∉ s.store.friends a
  pending : ⟨a, m.uuid⟩ ∈ m.friendRequests
  flows : ∃ flows : List ℕ, flows ≠ [] ∧
    s.tasks = flows.map fun flow => .asked flow c (.call .accept) (.byUuid a)

/-- A further tap on a request of `a`, or a step of a flow in which nothing fails. -/
def OfPair (c : ℕ) (a : String) (s : State) : Action → Prop
  | .addFwen c' ir => c' = c ∧ ∀ m ∈ s.session c, ∀ r ∈ m.friendRequests[ir]?, r.initialUser = a
  | act => WithoutError s act

instance (c : ℕ) (a : String) (s : State) (act : Action) : Decidable (OfPair c a s act) := by
  unfold OfPair
  split <;> infer_instance

/-- The two users, each with the name that its list gains. -/
def gains (m : User) (a n : String) : List (String × String) := [(a, m.username), (m.uuid, n)]

/-- From `s` to `s'` each list gained one name at its end, and the request left memory. -/
structure GainOnce (c : ℕ) (m : User) (a n : String) (s s' : State) : Prop where
  stored : ∀ p ∈ gains m a n, s'.store.friends p.1 = s.store.friends p.1 ++ [p.2] ∧
    (s'.store.friends p.1).count p.2 = 1
  memory : ∃ m', s'.session c = some m' ∧ m'.friends = m.friends ++ [n] ∧
    m'.friendRequests = m.friendRequests.erase ⟨a, m.uuid⟩

/-- The stored friends of both users and the lists in memory are those of `one`. -/
structure SameLists (c : ℕ) (m : User) (a : String) (one s' : Sequential.State) : Prop where
  stored : ∀ k ∈ [a, m.uuid], s'.store.friends k = one.store.friends k
  memory : ∃ m' m₁, s'.session c = some m' ∧ one.session c = some m₁ ∧
    m'.friends = m₁.friends ∧ m'.friendRequests = m₁.friendRequests

/-! ### The flows -/

/-- The task belongs to an accept of the request. -/
def Task.OfTap (c : ℕ) (a n : String) (name : String → Option String) : Task → Prop
  | .asked _ c' p q => c' = c ∧ p = .call .accept ∧ q = .byUuid a
  | .answered _ c' p result => c' = c ∧ p = .call .accept ∧
      ∀ o, result = .ok o → o.uuid = a ∧ o.username = n
  | .deleting k => k.client = c ∧ k.user.uuid = a ∧ k.user.username = n
  | .deleted k err => k.client = c ∧ k.user.uuid = a ∧ k.user.username = n ∧ err = false
  | .writing _ w => w.Names name
  | _ => False

/-- Before any write, the copy of the sender that the task holds is what the lookup finds. -/
def Task.FirstCopy (users : OrderedMap String Dict) (a : String) : Task → Prop
  | .answered _ _ _ (.ok o) => (Query.byUuid a).answer users = .ok o
  | .deleting k | .deleted k _ => (Query.byUuid a).answer users = .ok k.user
  | .writing _ _ => False
  | _ => True

/-- The users that the first completion saves. -/
def saved (m o : User) : List User := [o.addFriend m.username, accepted m o]

/-- Before the first completion. -/
structure Before (s₀ : State) (c : ℕ) (m : User) (a : String) (s : State) : Prop where
  users : s.store.users = s₀.store.users
  session : s.session c = some m
  flows : s.tasks ≠ []
  copies : ∀ t ∈ s.tasks, t.FirstCopy s₀.store.users a

/-- After the first completion, whose copy of the sender was `o`. -/
structure After (s₀ : State) (c : ℕ) (m : User) (a n : String) (o : User) (s : State) : Prop where
  found : (Query.byUuid a).answer s₀.store.users = .ok o
  session : s.session c = some (accepted m o)
  writes : ∀ k uuid dict, .writing k (.setUser uuid dict) ∈ s.tasks →
    ∃ u ∈ saved m o, dict = u.toFireObj ∧ u.uuid = uuid
  owed : ∀ p ∈ gains m a n, s.store.friends p.1 = s₀.store.friends p.1 ++ [p.2] ∨
    ∃ k dict, .writing k (.setUser p.1 dict) ∈ s.tasks

structure Overlapping (s₀ : State) (c : ℕ) (m : User) (a n : String) (s : State) : Prop where
  coherent : s.store.Coherent s₀.store.username
  tasks : ∀ t ∈ s.tasks, t.OfTap c a n s₀.store.username
  phase : Before s₀ c m a s ∨ ∃ o, After s₀ c m a n o s

variable {s₀ s s' : State} {c : ℕ} {m o : User} {a n : String}

/-! ### The two users -/

section Tapped

variable (h : Tapped c m a n s₀)
include h

theorem Tapped.known : m.Known s₀.store.username ∧ s₀.store.friends m.uuid = m.friends := by
  obtain ⟨d, hd, hagree⟩ := h.document
  exact agrees_known hd hagree

/-- Any lookup of the sender finds the sender, under the one username. -/
theorem Tapped.identity {store : Store} (hc : store.Coherent s₀.store.username)
    (ho : (Query.byUuid a).answer store.users = .ok o) : o.uuid = a ∧ o.username = n := by
  have huuid : o.uuid = a := hc.answer_uuid ho
  have hname : s₀.store.username o.uuid = some o.username := (hc.fetched ho).known
  rw [huuid, h.origin] at hname
  exact ⟨huuid, (Option.some.inj hname).symm⟩

/-- Each saved user lists the name that is to be gained after the stored ones. -/
theorem Tapped.saved_friends (ho : (Query.byUuid a).answer s₀.store.users = .ok o) :
    ∀ u ∈ saved m o, ∀ p ∈ gains m a n, u.uuid = p.1 →
      u.friends = s₀.store.friends p.1 ++ [p.2] := by
  obtain ⟨huuid, hname⟩ := h.identity h.coherent ho
  obtain ⟨hknown, hfriends⟩ := h.known
  have hstored : o.friends = s₀.store.friends a := huuid ▸ (h.coherent.fetched ho).friends
  -- a user who accepts an own request gains the own name
  have hown : a = m.uuid → n = m.username ∧ m.friends = s₀.store.friends a := by
    rintro rfl
    have horigin := h.origin
    rw [hknown] at horigin
    exact ⟨(Option.some.inj horigin).symm, hfriends.symm⟩
  intro u hu p hp hup
  rw [saved, List.mem_cons, List.mem_singleton] at hu
  rw [gains, List.mem_cons, List.mem_singleton] at hp
  obtain rfl | rfl := hu
  · show o.friends ++ [m.username] = _
    rw [hstored]
    obtain rfl | rfl := hp
    · rfl
    · have heq : a = m.uuid := huuid.symm.trans hup
      rw [(hown heq).1, ← heq]
  · show m.friends ++ [o.username] = _
    rw [hname]
    obtain rfl | rfl := hp
    · have heq : a = m.uuid := hup.symm
      rw [(hown heq).1, (hown heq).2]
    · rw [hfriends]

theorem Tapped.saved_known (ho : (Query.byUuid a).answer s₀.store.users = .ok o) :
    ∀ u ∈ saved m o, u.Known s₀.store.username := by
  intro u hu
  rw [saved, List.mem_cons, List.mem_singleton] at hu
  obtain rfl | rfl := hu
  · exact (h.coherent.fetched ho).known
  · exact h.known.1

end Tapped

/-! ### Steps -/

/-- A task that is not a write goes on: it is replaced by another one, or by none. -/
theorem After.turn (h : After s₀ c m a n o s) {i : ℕ} {t : Task} (ht : s.tasks[i]? = some t)
    (hw : ∀ k w, t ≠ .writing k w) {ts : List Task} (hts : ∀ k w, .writing k w ∉ ts)
    (htasks : s'.tasks = (s.drop i).tasks ++ ts) (husers : s'.store.users = s.store.users)
    (hsession : s'.session c = s.session c) : After s₀ c m a n o s' := by
  refine ⟨h.found, hsession.trans h.session, fun k uuid dict hin => ?_, fun p hp => ?_⟩
  · rw [htasks] at hin
    rcases List.mem_append.mp hin with hin | hin
    · exact h.writes k uuid dict (mem_of_mem_drop hin)
    · exact absurd hin (hts _ _)
  · obtain hstored | ⟨k, dict, hin⟩ := h.owed p hp
    · exact Or.inl (Store.friends_congr husers ▸ hstored)
    · rcases List.mem_cons.mp ((perm_drop ht).mem_iff.mp hin) with he | hin
      · exact absurd he.symm (hw _ _)
      · exact Or.inr ⟨k, dict, htasks ▸ List.mem_append_left _ hin⟩

theorem Overlapping.moved (h : Overlapping s₀ c m a n s) {i : ℕ} {t t' : Task}
    (ht : s.tasks[i]? = some t) (hw : ∀ k w, t ≠ .writing k w) (hw' : ∀ k w, t' ≠ .writing k w)
    (htasks : s'.tasks = (s.drop i).tasks ++ [t']) (husers : s'.store.users = s.store.users)
    (hsession : s'.session = s.session) (hof : t'.OfTap c a n s₀.store.username)
    (hcopy : s.store.users = s₀.store.users → t.FirstCopy s₀.store.users a →
      t'.FirstCopy s₀.store.users a) : Overlapping s₀ c m a n s' := by
  have hmem : ∀ t₀ ∈ s'.tasks, t₀ ∈ s.tasks ∨ t₀ = t' := by
    intro t₀ ht₀
    rw [htasks] at ht₀
    exact (List.mem_append.mp ht₀).imp mem_of_mem_drop List.mem_singleton.mp
  refine ⟨?_, fun t₀ ht₀ => ?_, ?_⟩
  · unfold Store.Coherent
    rw [husers]
    exact h.coherent
  · obtain ht₀ | rfl := hmem t₀ ht₀
    · exact h.tasks t₀ ht₀
    · exact hof
  obtain hbefore | ⟨o, hafter⟩ := h.phase
  · refine Or.inl ⟨husers.trans hbefore.users, hsession ▸ hbefore.session, ?_, fun t₀ ht₀ => ?_⟩
    · simp [htasks]
    · obtain ht₀ | rfl := hmem t₀ ht₀
      · exact hbefore.copies t₀ ht₀
      · exact hcopy hbefore.users (hbefore.copies t (List.mem_of_getElem? ht))
  · refine Or.inr ⟨o, hafter.turn ht hw (fun k w hin => ?_) htasks husers (congrFun hsession c)⟩
    exact hw' k w (List.mem_singleton.mp hin).symm

/-- The first completion saves both users. -/
theorem Before.completed (h : Before s₀ c m a s) (hs : Tapped c m a n s₀) {i : ℕ} {k : Call}
    (ht : s.tasks[i]? = some (.deleted k false)) (hk : k.client = c) :
    After s₀ c m a n k.user
        ((s.drop i).issue { k with currentUser := m } (acceptDeleted k.user m false)) ∧
      ∀ w ∈ (acceptDeleted k.user m false).writes, w.Names s₀.store.username := by
  have hfound : (Query.byUuid a).answer s₀.store.users = .ok k.user :=
    h.copies _ (List.mem_of_getElem? ht)
  obtain ⟨huuid, hname⟩ := hs.identity hs.coherent hfound
  have hf : k.user.username ∉ m.friends := hname ▸ hs.strangers.1
  have hr : ⟨k.user.uuid, m.uuid⟩ ∈ m.friendRequests := huuid ▸ hs.pending
  have hwrites : ∀ w, w ∈ (acceptDeleted k.user m false).writes ↔
      ∃ u ∈ saved m k.user, w ∈ saveUser u := by
    intro w
    rw [acceptDeleted_pending hf hr]
    simp [saved, accepted, saveData_eq_saveUser]
  refine ⟨⟨hfound, ?_, fun k' uuid dict hin => ?_, fun p hp => Or.inr ?_⟩, fun w hw => ?_⟩
  · rw [acceptDeleted_pending hf hr]
    exact (session_assign _ _ _ _).trans (if_pos hk.symm)
  · rcases List.mem_append.mp hin with hin | hin
    · exact False.elim (h.copies _ (mem_of_mem_drop hin))
    · obtain ⟨w, hw, he⟩ := List.mem_map.mp hin
      obtain ⟨-, rfl⟩ := Task.writing.inj he
      obtain ⟨u, hu, hw⟩ := (hwrites _).mp hw
      obtain ⟨rfl, rfl⟩ := mem_saveUser.mp hw
      exact ⟨u, hu, rfl, rfl⟩
  · obtain ⟨u, hu, hup⟩ : ∃ u ∈ saved m k.user, u.uuid = p.1 := by
      rw [gains, List.mem_cons, List.mem_singleton] at hp
      obtain rfl | rfl := hp
      · exact ⟨_, List.mem_cons_self, huuid⟩
      · exact ⟨_, List.mem_cons_of_mem _ List.mem_cons_self, rfl⟩
    have hw := (hwrites _).mpr ⟨u, hu, mem_saveUser.mpr ⟨hup.symm, rfl⟩⟩
    exact ⟨_, _, List.mem_append_right _ (List.mem_map.mpr ⟨_, hw, rfl⟩)⟩
  · obtain ⟨u, hu, hw⟩ := (hwrites w).mp hw
    exact saveUser_names (hs.saved_known hfound u hu) w hw

/-- A later completion finds the name of the sender in memory. -/
theorem After.completed (h : After s₀ c m a n o s) (hs : Tapped c m a n s₀) {i : ℕ} {k : Call}
    (ht : s.tasks[i]? = some (.deleted k false)) (hk : k.client = c) (hn : k.user.username = n) :
    acceptDeleted k.user (accepted m o) false = ⟨accepted m o, []⟩ ∧
      After s₀ c m a n o ((s.drop i).issue { k with currentUser := accepted m o }
        (acceptDeleted k.user (accepted m o) false)) := by
  have hname := (hs.identity hs.coherent h.found).2
  have hfriend : k.user.username ∈ (accepted m o).friends := by
    rw [hn, ← hname]
    exact List.mem_append_right _ (List.mem_singleton_self _)
  have hidle := acceptDeleted_friend hfriend false
  refine ⟨hidle, ?_⟩
  rw [hidle]
  refine h.turn ht (by simp) (by simp) rfl rfl ?_
  refine (session_assign _ _ _ _).trans ?_
  rw [if_pos hk.symm, h.session]

/-- A document of the first completion is stored. -/
theorem After.stored (h : After s₀ c m a n o s) (hs : Tapped c m a n s₀) {i : ℕ} {k : Call}
    {w : Write} (ht : s.tasks[i]? = some (.writing k w)) :
    After s₀ c m a n o (((s.drop i).write w).record (.stored k w)) := by
  have hsaved := hs.saved_friends h.found
  refine ⟨h.found, h.session, fun k' uuid dict hin => h.writes k' uuid dict (mem_of_mem_drop hin),
    fun p hp => ?_⟩
  by_cases hw : ∃ dict, w = .setUser p.1 dict
  · obtain ⟨dict, rfl⟩ := hw
    obtain ⟨u, hu, rfl, hup⟩ := h.writes k p.1 dict (List.mem_of_getElem? ht)
    refine Or.inl ?_
    show (s.store.apply (.setUser p.1 u.toFireObj)).friends p.1 = _
    rw [Store.apply_setUser_friends, if_pos rfl, hsaved u hu p hp hup]
  have hsame := s.store.apply_friends_of_ne fun dict he => hw ⟨dict, he⟩
  obtain hstored | ⟨k', dict, hin⟩ := h.owed p hp
  · exact Or.inl (hsame.trans hstored)
  · rcases List.mem_cons.mp ((perm_drop ht).mem_iff.mp hin) with he | hin
    · obtain ⟨-, rfl⟩ := Task.writing.inj he
      exact absurd ⟨dict, rfl⟩ hw
    · exact Or.inr ⟨k', dict, hin⟩

theorem Overlapping.session (h : Overlapping s₀ c m a n s) : ∃ m', s.session c = some m' := by
  obtain hbefore | ⟨o, hafter⟩ := h.phase
  · exact ⟨_, hbefore.session⟩
  · exact ⟨_, hafter.session⟩

theorem Overlapping.completed (h : Overlapping s₀ c m a n s) (hs : Tapped c m a n s₀) {i : ℕ}
    {k : Call} {m' : User} (ht : s.tasks[i]? = some (.deleted k false))
    (hm' : s.session k.client = some m') : Overlapping s₀ c m a n
      ((s.drop i).issue { k with currentUser := m' } (acceptDeleted k.user m' false)) := by
  obtain ⟨hk, -, hname, -⟩ := h.tasks _ (List.mem_of_getElem? ht)
  have hnames : ∀ {out : Outcome}, (∀ w ∈ out.writes, w.Names s₀.store.username) →
      ∀ t ∈ ((s.drop i).issue { k with currentUser := m' } out).tasks,
        t.OfTap c a n s₀.store.username := by
    intro out hout t hin
    rcases List.mem_append.mp hin with hin | hin
    · exact h.tasks t (mem_of_mem_drop hin)
    · obtain ⟨w, hw, rfl⟩ := List.mem_map.mp hin
      exact hout w hw
  obtain hbefore | ⟨o, hafter⟩ := h.phase
  · obtain rfl : m = m' := Option.some.inj (hbefore.session.symm.trans (hk ▸ hm'))
    obtain ⟨hafter, hw⟩ := hbefore.completed hs ht hk
    exact ⟨h.coherent, hnames hw, Or.inr ⟨_, hafter⟩⟩
  · obtain rfl : accepted m o = m' := Option.some.inj (hafter.session.symm.trans (hk ▸ hm'))
    obtain ⟨hidle, hafter⟩ := hafter.completed hs ht hk hname
    exact ⟨h.coherent, hnames (by simp [hidle]), Or.inr ⟨_, hafter⟩⟩

theorem Overlapping.stored (h : Overlapping s₀ c m a n s) (hs : Tapped c m a n s₀) {i : ℕ}
    {k : Call} {w : Write} (ht : s.tasks[i]? = some (.writing k w)) :
    Overlapping s₀ c m a n (((s.drop i).write w).record (.stored k w)) := by
  have hw : w.Names s₀.store.username := h.tasks _ (List.mem_of_getElem? ht)
  refine ⟨h.coherent.apply hw, fun t hin => h.tasks t (mem_of_mem_drop hin), ?_⟩
  obtain hbefore | ⟨o, hafter⟩ := h.phase
  · exact False.elim (hbefore.copies _ (List.mem_of_getElem? ht))
  · exact Or.inr ⟨o, hafter.stored hs ht⟩

/-- A further tap starts one more flow. -/
theorem Overlapping.tapped (h : Overlapping s₀ c m a n s) : Overlapping s₀ c m a n
    (s.start fun flow => .asked flow c (.call .accept) (.byUuid a)) := by
  have hmem : ∀ t ∈ (s.start fun flow => .asked flow c (.call .accept) (.byUuid a)).tasks,
      t ∈ s.tasks ∨ t = .asked s.next c (.call .accept) (.byUuid a) := fun t hin =>
    (List.mem_append.mp hin).imp id List.mem_singleton.mp
  refine ⟨h.coherent, fun t hin => ?_, ?_⟩
  · obtain hin | rfl := hmem t hin
    · exact h.tasks t hin
    · exact ⟨rfl, rfl, rfl⟩
  obtain hbefore | ⟨o, hafter⟩ := h.phase
  · refine Or.inl ⟨hbefore.users, hbefore.session, by simp [State.start], fun t hin => ?_⟩
    obtain hin | rfl := hmem t hin
    · exact hbefore.copies t hin
    · trivial
  · refine Or.inr ⟨o, hafter.found, hafter.session, fun k uuid dict hin => ?_, fun p hp => ?_⟩
    · obtain hin | he := hmem _ hin
      · exact hafter.writes k uuid dict hin
      · cases he
    · obtain hstored | ⟨k, dict, hin⟩ := hafter.owed p hp
      · exact Or.inl hstored
      · exact Or.inr ⟨k, dict, List.mem_append_left _ hin⟩

/-- A step of a flow in which nothing fails. -/
theorem Overlapping.advance (h : Overlapping s₀ c m a n s) (hs : Tapped c m a n s₀) {i : ℕ}
    (herr : WithoutError s (.advance i false)) (hn : Next s (.advance i false) s') :
    Overlapping s₀ c m a n s' := by
  have hsession : s.session c ≠ none := by
    obtain ⟨m', hm'⟩ := h.session
    rw [hm']
    exact Option.some_ne_none m'
  have hflow : ∀ t ∈ s.tasks, t.InAccept s := by
    intro t ht
    have hof := h.tasks t ht
    cases t with
    | asked flow c' p q => exact hof.2.1
    | answered flow c' p result => exact ⟨hof.2.1, hof.1 ▸ hsession⟩
    | deleting k => trivial
    | deleted k err => exact ⟨hof.2.2.2, hof.1 ▸ hsession⟩
    | writing k w => trivial
    | loading flow c uuid => cases hof
    | loaded flow c answer => cases hof
    | creating flow username => cases hof
    | enrolling flow u => cases hof
  cases acceptStep_of_next hflow herr hn with
  | stay => exact h
  | answer flow c' q ht result hr =>
    obtain ⟨rfl, -, rfl⟩ := h.tasks _ (List.mem_of_getElem? ht)
    refine h.moved ht (by simp) (by simp) rfl rfl rfl ⟨rfl, rfl, fun o ho => ?_⟩ fun husers _ => ?_
    · exact hs.identity h.coherent (hr o ho)
    · cases result with
      | error e => trivial
      | ok o =>
        show (Query.byUuid a).answer s₀.store.users = .ok o
        exact husers ▸ hr o rfl
  | called k ht hm =>
    obtain ⟨hk, -, ho⟩ := h.tasks _ (List.mem_of_getElem? ht)
    exact h.moved ht (by simp) (by simp) rfl rfl rfl ⟨hk, ho _ rfl⟩ fun _ hcopy => hcopy
  | deleteStored k ht =>
    obtain ⟨hk, huuid, hname⟩ := h.tasks _ (List.mem_of_getElem? ht)
    exact h.moved ht (by simp) (by simp) rfl rfl rfl ⟨hk, huuid, hname, rfl⟩ fun _ hcopy => hcopy
  | completed k ht m' hm' => exact h.completed hs ht hm'
  | stored k w ht => exact h.stored hs ht

theorem Overlapping.step (h : Overlapping s₀ c m a n s) (hs : Tapped c m a n s₀) {act : Action}
    (hC : OfPair c a s act) : Overlapping s₀ c m a n (step s act) := by
  cases act with
  | addFwen c' ir =>
    obtain ⟨rfl, hrow⟩ := hC
    simp only [Interleaved.step]
    cases hr : (s.session c').bind fun m => m.friendRequests[ir]? with
    | none => exact h
    | some r =>
      obtain ⟨m', hm', hr⟩ := Option.bind_eq_some_iff.mp hr
      obtain rfl : r.initialUser = a := hrow m' hm' r hr
      exact h.tapped
  | advance i err =>
    cases err with
    | false => exact h.advance hs hC (next_step s _)
    | true => exact False.elim hC
  | _ => exact False.elim hC

/-! ### Runs -/

theorem Tapped.overlapping (h : Tapped c m a n s₀) : Overlapping s₀ c m a n s₀ := by
  obtain ⟨flows, hne, htasks⟩ := h.flows
  have hasked : ∀ t ∈ s₀.tasks, ∃ flow, t = .asked flow c (.call .accept) (.byUuid a) := by
    intro t ht
    rw [htasks] at ht
    obtain ⟨flow, -, rfl⟩ := List.mem_map.mp ht
    exact ⟨flow, rfl⟩
  refine ⟨h.coherent, fun t ht => ?_, Or.inl ⟨rfl, h.session, by simpa [htasks], fun t ht => ?_⟩⟩
  · obtain ⟨flow, rfl⟩ := hasked t ht
    exact ⟨rfl, rfl, rfl⟩
  · obtain ⟨flow, rfl⟩ := hasked t ht
    trivial

/-- When no flow is left, the first completion has run and both documents are stored. -/
theorem Overlapping.finished (h : Overlapping s₀ c m a n s) (hdone : s.tasks = []) :
    ∃ o, (Query.byUuid a).answer s₀.store.users = .ok o ∧ s.session c = some (accepted m o) ∧
      ∀ p ∈ gains m a n, s.store.friends p.1 = s₀.store.friends p.1 ++ [p.2] := by
  obtain hbefore | ⟨o, hafter⟩ := h.phase
  · exact absurd hdone hbefore.flows
  · refine ⟨o, hafter.found, hafter.session, fun p hp => ?_⟩
    obtain hstored | ⟨k, dict, hin⟩ := hafter.owed p hp
    · exact hstored
    · rw [hdone] at hin
      cases hin

/-- A single accept, run to completion. -/
theorem Tapped.one (h : Tapped c m a n s₀) (ho : (Query.byUuid a).answer s₀.store.users = .ok o) :
    (Sequential.step s₀.sequential (.call c .accept (.byUuid a))).session c = some (accepted m o) ∧
      ∀ p ∈ gains m a n,
        (Sequential.step s₀.sequential (.call c .accept (.byUuid a))).store.friends p.1 =
          s₀.store.friends p.1 ++ [p.2] := by
  obtain ⟨huuid, hname⟩ := h.identity h.coherent ho
  have hf : o.username ∉ m.friends := hname ▸ h.strangers.1
  have hr : ⟨o.uuid, m.uuid⟩ ∈ m.friendRequests := huuid ▸ h.pending
  obtain ⟨hcurrent, husers⟩ := perform_accept (s := s₀.store) hf hr
  have hstep : Sequential.step s₀.sequential (.call c .accept (.byUuid a)) = _ :=
    step_call h.session ho
  rw [hstep, hcurrent]
  refine ⟨Function.update_self .., fun p hp => ?_⟩
  have hget : ∃ u ∈ saved m o, u.uuid = p.1 ∧
      (s₀.store.applyAll (perform m o .accept).writes).users.get? p.1 = some u.toFireObj := by
    rw [husers]
    by_cases hpm : p.1 = m.uuid
    · refine ⟨accepted m o, List.mem_cons_of_mem _ List.mem_cons_self, hpm.symm, ?_⟩
      rw [hpm, OrderedMap.get?_set_self]
    · have hpo : p.1 = o.uuid := by
        rw [gains, List.mem_cons, List.mem_singleton] at hp
        obtain rfl | rfl := hp
        · exact huuid.symm
        · exact absurd rfl hpm
      refine ⟨o.addFriend m.username, List.mem_cons_self, hpo.symm, ?_⟩
      rw [OrderedMap.get?_set_of_ne _ _ hpm, hpo, OrderedMap.get?_set_self]
  obtain ⟨u, hu, hup, hget⟩ := hget
  exact (Store.friends_of_get? hget).trans (h.saved_friends ho u hu p hp hup)

/-- However many accepts of one request overlap, and in whatever order their lookups, deletes
and writes are taken, when none is left the lists are those of a single accept. -/
theorem overlappingAccepts_countOnce {s : State} (hs : Tapped c m a n s) (acts : List Action)
    (h : Runs.Each step (OfPair c a) s acts) (hdone : (Runs.run step s acts).tasks = []) :
    GainOnce c m a n s (Runs.run step s acts) ∧
      SameLists c m a (Sequential.step s.sequential (.call c .accept (.byUuid a)))
        (Runs.run step s acts).sequential := by
  have hend := Runs.run_of_each (I := Overlapping s c m a n) (fun _ act hi hC => hi.step hs hC)
    hs.overlapping h
  obtain ⟨o, ho, hsession, hstored⟩ := hend.finished hdone
  obtain ⟨huuid, hname⟩ := hs.identity hs.coherent ho
  obtain ⟨hone, hone'⟩ := hs.one ho
  have hstrange : ∀ p ∈ gains m a n, p.2 ∉ s.store.friends p.1 := by
    intro p hp
    rw [gains, List.mem_cons, List.mem_singleton] at hp
    obtain rfl | rfl := hp
    · exact hs.strangers.2
    · exact hs.known.2 ▸ hs.strangers.1
  refine ⟨⟨fun p hp => ⟨hstored p hp, ?_⟩, accepted m o, hsession, ?_, ?_⟩,
    ⟨fun k hk => ?_, _, _, hsession, hone, rfl, rfl⟩⟩
  · rw [hstored p hp, List.count_append, List.count_eq_zero.mpr (hstrange p hp)]
    simp
  · rw [← hname]
    rfl
  · rw [← huuid]
    rfl
  · obtain ⟨p, hp, rfl⟩ : ∃ p ∈ gains m a n, p.1 = k := by
      rw [List.mem_cons, List.mem_singleton] at hk
      obtain rfl | rfl := hk
      · exact ⟨_, List.mem_cons_self, rfl⟩
      · exact ⟨_, List.mem_cons_of_mem _ List.mem_cons_self, rfl⟩
    exact (hstored p hp).trans (hone' p hp).symm

end

open PlainKit

/-- Bob has tapped Ann's request twice. -/
def tappedTwice : State := { signedUp [("a", "ann"), ("b", "bob")] with
  session := fun _ => some bob
  tasks := [0, 1].map fun flow => .asked flow 0 (.call .accept) (.byUuid "a") }

theorem tapped_tappedTwice : Tapped 0 bob "a" "ann" tappedTwice where
  coherent := (Sequential.initial_signedUp (by decide)).wellKept.coherent
  session := rfl
  document := ⟨_, rfl, fun _ _ => rfl⟩
  origin := rfl
  strangers := by decide
  pending := by decide
  flows := ⟨[0, 1], by simp, rfl⟩

/-- Both lookups are answered, then he taps once more; every task waits for its turn. -/
def tapAgain : List Action := advances 0 2 ++ [.addFwen 0 0] ++ advances 0 12

theorem overlappingAccepts_countOnce_tapAgain :
    GainOnce 0 bob "a" "ann" tappedTwice (Runs.run step tappedTwice tapAgain) ∧
      SameLists 0 bob "a" (Sequential.step tappedTwice.sequential (.call 0 .accept (.byUuid "a")))
        (Runs.run step tappedTwice tapAgain).sequential :=
  overlappingAccepts_countOnce tapped_tappedTwice tapAgain (by decide +kernel)
    (List.length_eq_zero_iff.mp (by decide +kernel))

end JamSession.Interleaved
