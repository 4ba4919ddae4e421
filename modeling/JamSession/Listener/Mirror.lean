import JamSession.Listener.System
import JamSession.Firestore.PlainKit

/-! The requests in memory and the stored ones. A load reads the whole collection and appends
all of it, so the list mirrors the collection only as long as no load brings what is there
already, and as long as nothing that was loaded goes away in the store alone. What the
listeners do ensure is that nothing is missed: whenever a document is not in memory, a firing,
a query or an answer that brings it is still outstanding. An accept deletes the document first
and removes the entry when the delete is acknowledged, so in between the entry is owed. -/

namespace JamSession.Listener

open UserController

section

variable [UIKit]

/-- When no callback is outstanding, the current user has in memory one entry for each document
that decodes, and nothing else. -/
def Mirrors (s : State) : Prop :=
  ∀ o, s.currentUser = some o → s.tasks = [] →
    (memory s o).Perm (stored s (s.objects o).uuid)

/-- The request whose document an accept of `o` has deleted and whose entry it is to remove. -/
def Task.taken (uuid : String) (o : ℕ) : Task → Option FriendRequest
  | .deleted o' origin false => if o' = o then some ⟨origin.uuid, uuid⟩ else none
  | _ => none

def accepted (s : State) (o : ℕ) : List FriendRequest :=
  s.tasks.filterMap (Task.taken (s.objects o).uuid o)

/-- The task brings all that is missing from the list to the requests of `o`. -/
def Reloads (s : State) (o : ℕ) (rs : List FriendRequest) : Task → Prop
  | .fired isEmpty => isEmpty = false
  | .asked o' => o' = o
  | .answered o' (some ds) => o' = o ∧
    (stored s (s.objects o).uuid).Subperm (rs ++ ds.filterMap FriendRequest.fromStringAny)
  | _ => False

/-- The request of which a write takes the document away from the collection of `o`. -/
def lost (s : State) (o : ℕ) (w : Write) : Option FriendRequest :=
  match w with
  | .setUser _ _ => none
  | .setRequest receiver title _ | .deleteRequest receiver title =>
    if receiver = (s.objects o).uuid ∧
        content (s.store.apply w) receiver title ≠ content s.store receiver title then
      (content s.store receiver title).join
    else none

/-- The requests can be stored again, each under its title, without overwriting another one. -/
def Resavable (s : State) (uuid : String) (rs : List FriendRequest) : Prop :=
  (∀ r ∈ rs, ∀ r' ∈ rs, requestTitle r.initialUser r.receivingUser =
    requestTitle r'.initialUser r'.receivingUser → r = r') ∧
  ∀ r ∈ rs, ∀ r' ∈ (content s.store uuid (requestTitle r.initialUser r.receivingUser)).join, r' = r

/-- The condition on the completion of an accept of `o` when `o'` is current. No entry is owed
for a friend; an entry that is removed leaves nothing missing that is not on its way, and what
is stored again overwrites no other request. -/
def KeepsCompletion (s : State) (i o : ℕ) (origin : User) (o' : ℕ) : Prop :=
  let r := FriendRequest.mk origin.uuid (s.objects o).uuid
  if origin.username ∈ (s.objects o).friends then o' = o →
    (memory s o).Subperm (stored s (s.objects o).uuid ++ accepted (s.drop i) o)
  else r ∈ memory s o →
    if o' = o then Resavable s (s.objects o).uuid ((memory s o).erase r) ∧
      ((stored s (s.objects o).uuid).Subperm ((memory s o).erase r) ∨
        ∃ t ∈ (s.drop i).tasks, Reloads s o ((memory s o).erase r) t)
    else Resavable s (s.objects o').uuid (memory s o')

/-- The condition on a step. An object assigned has nothing in memory but stored requests, once
each. A write takes away no document whose request is in memory, apart from those that the own
accepts owe; the delete of an own accept takes away the document of its request; an own ignore
finds the document of its request, and what it stores again overwrites no other request. A load
brings only what is stored or owed, and not in memory yet, and it fails only if nothing is
missing or another load is under way. -/
def KeepsMirror (s : State) : Action → Prop
  | .assign o => (memory s o).Subperm (stored s (s.objects o).uuid)
  | .write w => ∀ o ∈ s.currentUser, ∀ r ∈ lost s o w,
      (memory s o).Subperm ((stored s (s.objects o).uuid).erase r ++ accepted s o)
  | .ignore origin => ∀ o ∈ s.currentUser, ⟨origin.uuid, (s.objects o).uuid⟩ ∈ memory s o →
      content s.store (s.objects o).uuid (requestTitle origin.uuid (s.objects o).uuid) =
        some (some ⟨origin.uuid, (s.objects o).uuid⟩) ∧
      Resavable s (s.objects o).uuid ((memory s o).erase ⟨origin.uuid, (s.objects o).uuid⟩)
  | .accept _ => True
  | .advance i err => match s.tasks[i]? with
    | some (.asked o) => err = true → s.currentUser = some o →
        (stored s (s.objects o).uuid).Subperm (memory s o) ∨
          ∃ t ∈ (s.drop i).tasks, Reloads s o (memory s o) t
    | some (.answered o (some ds)) => s.currentUser = some o →
        (memory s o ++ ds.filterMap FriendRequest.fromStringAny).Subperm
          (stored s (s.objects o).uuid ++ accepted s o)
    | some (.deleting o origin) => err = false → ∀ o' ∈ s.currentUser,
        ∀ r ∈ lost s o' (acceptFriendRequest origin (s.objects o)),
          o' = o ∧ r = ⟨origin.uuid, (s.objects o).uuid⟩ ∨
            (memory s o').Subperm ((stored s (s.objects o').uuid).erase r ++ accepted s o')
    | some (.deleted o origin false) => ∀ o' ∈ s.currentUser, KeepsCompletion s i o origin o'
    | _ => True

instance (s : State) (o : ℕ) (rs : List FriendRequest) (t : Task) :
    Decidable (Reloads s o rs t) := by
  unfold Reloads
  split <;> infer_instance

instance (s : State) (uuid : String) (rs : List FriendRequest) :
    Decidable (Resavable s uuid rs) :=
  inferInstanceAs
    (Decidable ((∀ r ∈ rs, ∀ r' ∈ rs, _ → r = r') ∧ ∀ r ∈ rs, ∀ r' ∈ Option.join _, _))

instance (s : State) (i o : ℕ) (origin : User) (o' : ℕ) :
    Decidable (KeepsCompletion s i o origin o') := by
  unfold KeepsCompletion
  infer_instance

instance (s : State) (a : Action) : Decidable (KeepsMirror s a) := by
  cases a <;> simp only [KeepsMirror]
  case advance => split <;> infer_instance
  all_goals infer_instance

/-! ### Stored documents -/

/-- The store after a write of one document: the other collections are the same, and the one
written keeps its other documents. -/
structure Rewritten (st st' : Store) (receiver title : String) : Prop where
  others : ∀ k, k ≠ receiver → st'.friendRequests k = st.friendRequests k
  rest : ∃ rest : List FriendRequest,
    ((st.friendRequests receiver).entries.filterMap fun e => FriendRequest.fromStringAny e.2).Perm
      ((content st receiver title).join.toList ++ rest) ∧
    ((st'.friendRequests receiver).entries.filterMap fun e => FriendRequest.fromStringAny e.2).Perm
      ((content st' receiver title).join.toList ++ rest)

theorem filterMap_cons_toList (e : String × Dict) (es : List (String × Dict)) :
    ((e :: es).filterMap fun e => FriendRequest.fromStringAny e.2) =
      (FriendRequest.fromStringAny e.2).toList ++
        es.filterMap fun e => FriendRequest.fromStringAny e.2 := by
  rw [List.filterMap_cons]
  cases FriendRequest.fromStringAny e.2 <;> rfl

/-- A collection, with the document under one title put first. -/
theorem entries_perm (m : OrderedMap String Dict) (title : String) :
    (m.entries.filterMap fun e => FriendRequest.fromStringAny e.2).Perm
      (((m.get? title).map FriendRequest.fromStringAny).join.toList ++
        (m.erase title).entries.filterMap fun e => FriendRequest.fromStringAny e.2) := by
  cases hm : m.get? title with
  | none =>
    rw [m.erase_entries_of_none hm]
    exact List.Perm.refl _
  | some d =>
    have hperm := (m.perm_erase hm).filterMap fun e => FriendRequest.fromStringAny e.2
    rw [filterMap_cons_toList] at hperm
    exact hperm

theorem rewritten_setRequest (st : Store) (receiver title : String) (d : Dict) :
    Rewritten st (st.apply (.setRequest receiver title d)) receiver title := by
  refine ⟨fun k hk => by simp [Store.apply, hk], _, entries_perm _ title, ?_⟩
  have hperm := ((st.friendRequests receiver).perm_set title d).filterMap
    fun e => FriendRequest.fromStringAny e.2
  rw [filterMap_cons_toList] at hperm
  simpa [content, Store.apply] using hperm

theorem rewritten_deleteRequest (st : Store) (receiver title : String) :
    Rewritten st (st.apply (.deleteRequest receiver title)) receiver title := by
  refine ⟨fun k hk => by simp [Store.apply, hk], _, entries_perm _ title, ?_⟩
  simp [content, Store.apply]

theorem content_setRequest (st : Store) (uuid title title' : String) (d : Dict) :
    content (st.apply (.setRequest uuid title d)) uuid title' =
      if title' = title then some (FriendRequest.fromStringAny d) else content st uuid title' := by
  rw [content, Store.apply_setRequest_get?]
  by_cases ht : title' = title <;> simp [ht, content]

theorem content_deleteRequest (st : Store) (uuid title title' : String) :
    content (st.apply (.deleteRequest uuid title)) uuid title' =
      if title' = title then none else content st uuid title' := by
  rw [content, Store.apply_deleteRequest_get?]
  by_cases ht : title' = title <;> simp [ht, content]

/-! ### The invariant -/

/-- A user that was fetched for an accept has no requests. -/
def Task.Fetched : Task → Prop
  | .deleting _ origin | .deleted _ origin _ => origin.friendRequests = []
  | _ => True

/-- Nothing is missing in the memory of `o`, or it is on its way. -/
def UpToDate (s : State) (o : ℕ) : Prop :=
  (stored s (s.objects o).uuid).Subperm (memory s o) ∨ ∃ t ∈ s.tasks, Reloads s o (memory s o) t

structure Tracked (s : State) : Prop where
  fetched : ∀ t ∈ s.tasks, t.Fetched
  listening : ∀ o, s.currentUser = some o → (s.objects o).uuid ∈ s.listeners
  sound : ∀ o, s.currentUser = some o →
    (memory s o).Subperm (stored s (s.objects o).uuid ++ accepted s o)
  complete : ∀ o, s.currentUser = some o → UpToDate s o

variable {s s' : State} {o : ℕ}

theorem Reloads.mono (hu : (s'.objects o).uuid = (s.objects o).uuid)
    (hst : (stored s' (s.objects o).uuid).Subperm (stored s (s.objects o).uuid))
    {rs rs' : List FriendRequest} (hrs : rs.Subperm rs') {t : Task} (ht : Reloads s o rs t) :
    Reloads s' o rs' t := by
  match t, ht with
  | .fired isEmpty, ht => exact ht
  | .asked o', ht => exact ht
  | .answered o' (some ds), ht =>
    refine ⟨ht.1, ?_⟩
    rw [hu]
    exact (hst.trans ht.2).trans (hrs.append (List.Subperm.refl _))

theorem UpToDate.mono (hu : (s'.objects o).uuid = (s.objects o).uuid)
    (hst : (stored s' (s.objects o).uuid).Subperm (stored s (s.objects o).uuid))
    (hm : (memory s o).Subperm (memory s' o))
    (ht : ∀ t ∈ s.tasks, Reloads s o (memory s o) t → t ∈ s'.tasks) (h : UpToDate s o) :
    UpToDate s' o := by
  rcases h with hle | ⟨t, hmem, hr⟩
  · refine Or.inl ?_
    rw [hu]
    exact (hst.trans hle).trans hm
  · exact Or.inr ⟨t, ht t hmem hr, hr.mono hu hst hm⟩

theorem mem_fire {listeners : List String} {uuid : String} {t : Task} :
    t ∈ (s.fire listeners uuid).tasks ↔ t ∈ s.tasks ∨
      uuid ∈ listeners ∧ t = .fired (s.store.friendRequests uuid).entries.isEmpty := by
  simp only [State.fire, List.mem_append, List.mem_map, List.mem_filter, decide_eq_true_eq]
  constructor
  · rintro (h | ⟨k, ⟨hk, rfl⟩, rfl⟩)
    · exact Or.inl h
    · exact Or.inr ⟨hk, rfl⟩
  · rintro (h | ⟨hk, rfl⟩)
    · exact Or.inl h
    · exact Or.inr ⟨uuid, ⟨hk, rfl⟩, rfl⟩

/-- No entry is owed for a firing. -/
theorem accepted_fire (listeners : List String) (uuid : String) (o : ℕ) :
    accepted (s.fire listeners uuid) o = accepted s o := by
  have hnone : ((listeners.filter (· = uuid)).map fun _ =>
      Task.fired (s.store.friendRequests uuid).entries.isEmpty).filterMap
        (Task.taken (s.objects o).uuid o) = [] := by
    rw [List.filterMap_map]
    exact List.filterMap_eq_nil_iff.mpr fun _ _ => rfl
  simp only [accepted, State.fire, List.filterMap_append, hnone, List.append_nil]

/-- After a firing for its listener, a user is up to date or about to be. -/
theorem upToDate_fire {listeners : List String} (hl : (s.objects o).uuid ∈ listeners) :
    UpToDate (s.fire listeners (s.objects o).uuid) o := by
  cases he : (s.store.friendRequests (s.objects o).uuid).entries.isEmpty with
  | true =>
    refine Or.inl ?_
    have hnil : stored s (s.objects o).uuid = [] := by
      rw [stored, List.isEmpty_iff.mp he]
      rfl
    show (stored s (s.objects o).uuid).Subperm _
    rw [hnil]
    exact List.nil_subperm
  | false => exact Or.inr ⟨.fired false, mem_fire.mpr (Or.inr ⟨hl, by rw [he]⟩), rfl⟩

/-- A write that takes away no request in memory keeps the memory within the store. -/
theorem memory_rewritten {receiver title : String} {st : Store} {M A : List FriendRequest}
    (hr : Rewritten s.store st receiver title)
    (hM : M.Subperm (stored s (s.objects o).uuid ++ A))
    (hlost : (s.objects o).uuid = receiver →
      content st receiver title ≠ content s.store receiver title →
      ∀ r, (content s.store receiver title).join = some r →
        M.Subperm ((stored s (s.objects o).uuid).erase r ++ A)) :
    M.Subperm (stored { s with store := st } (s.objects o).uuid ++ A) := by
  by_cases hu : (s.objects o).uuid = receiver
  · obtain ⟨rest, hbefore, hafter⟩ := hr.rest
    have hrest : (rest ++ A).Subperm
        (stored { s with store := st } (s.objects o).uuid ++ A) := by
      refine List.Subperm.append ?_ (List.Subperm.refl A)
      simp only [stored, hu]
      exact (List.sublist_append_right _ _).subperm.trans hafter.symm.subperm
    by_cases hc : content st receiver title = content s.store receiver title
    · refine hM.trans (List.Perm.subperm (List.Perm.append_right A ?_))
      simp only [stored, hu]
      rw [hc] at hafter
      exact hbefore.trans hafter.symm
    · cases hj : (content s.store receiver title).join with
      | none =>
        refine (hM.trans (List.Perm.subperm (List.Perm.append_right A ?_))).trans hrest
        rw [hj] at hbefore
        simpa only [stored, hu, Option.toList_none, List.nil_append] using hbefore
      | some r =>
        refine ((hlost hu hc r hj).trans
          (List.Perm.subperm (List.Perm.append_right A ?_))).trans hrest
        rw [hj] at hbefore
        simpa only [stored, hu, Option.toList_some, List.singleton_append, List.erase_cons_head]
          using hbefore.erase r
  · simpa only [stored, hr.others _ hu] using hM

/-! ### Tasks and assignments -/

theorem perm_drop {i : ℕ} {t : Task} (ht : s.tasks[i]? = some t) :
    s.tasks.Perm (t :: (s.drop i).tasks) := by
  obtain ⟨hi, rfl⟩ := List.getElem?_eq_some_iff.mp ht
  exact (List.getElem_cons_eraseIdx_perm hi).symm

/-- What a task owes goes with it. -/
theorem accepted_drop {i : ℕ} {t : Task} (ht : s.tasks[i]? = some t) (o : ℕ) :
    (accepted s o).Perm ((t.taken (s.objects o).uuid o).toList ++ accepted (s.drop i) o) := by
  have hperm := (perm_drop ht).filterMap (Task.taken (s.objects o).uuid o)
  rw [List.filterMap_cons] at hperm
  cases hu : t.taken (s.objects o).uuid o <;> rw [hu] at hperm <;> exact hperm

/-- A step that changes tasks only. -/
theorem Tracked.tasks (h : Tracked s) {ts : List Task} (hf : ∀ t ∈ ts, t.Fetched)
    (ha : ∀ o, (accepted s o).Subperm (accepted { s with tasks := ts } o))
    (hts : ∀ o, s.currentUser = some o → ∀ t ∈ s.tasks, Reloads s o (memory s o) t →
      t ∈ ts ∨ UpToDate { s with tasks := ts } o) : Tracked { s with tasks := ts } := by
  refine ⟨hf, h.listening, fun o ho => ?_, fun o ho => ?_⟩
  · exact (h.sound o ho).trans ((List.Subperm.refl _).append (ha o))
  · rcases h.complete o ho with hle | ⟨t, ht, hr⟩
    · exact Or.inl hle
    · rcases hts o ho t ht hr with hmem | hu
      · exact Or.inr ⟨t, hmem, hr.mono rfl (List.Subperm.refl _) (List.Subperm.refl _)⟩
      · exact hu

/-- A task that owes nothing gives way to others. -/
theorem Tracked.giveWay (h : Tracked s) {i : ℕ} {t : Task} (ht : s.tasks[i]? = some t)
    (hnone : ∀ uuid o, t.taken uuid o = none) (ts : List Task) (hf : ∀ u ∈ ts, u.Fetched)
    (hts : ∀ o, s.currentUser = some o → Reloads s o (memory s o) t →
      UpToDate { s with tasks := (s.drop i).tasks ++ ts } o) :
    Tracked { s with tasks := (s.drop i).tasks ++ ts } := by
  have hmem := fun u => (perm_drop ht).mem_iff (a := u)
  refine h.tasks (fun u hu => ?_) (fun o => ?_) fun o ho u hu hr => ?_
  · rcases List.mem_append.mp hu with hu | hu
    · exact h.fetched u ((hmem u).mpr (List.mem_cons_of_mem t hu))
    · exact hf u hu
  · have hperm := accepted_drop ht o
    rw [hnone, Option.toList_none, List.nil_append] at hperm
    refine hperm.subperm.trans ?_
    simp only [accepted, List.filterMap_append]
    exact (List.sublist_append_left _ _).subperm
  · rcases List.mem_cons.mp ((hmem u).mp hu) with rfl | hu
    · exact Or.inr (hts o ho hr)
    · exact Or.inl (List.mem_append_left ts hu)

theorem Tracked.ended (h : Tracked s) {i : ℕ} {t : Task} (ht : s.tasks[i]? = some t)
    (hnone : ∀ uuid o, t.taken uuid o = none)
    (hr : ∀ o, s.currentUser = some o → ¬ Reloads s o (memory s o) t) : Tracked (s.drop i) := by
  have hend := h.giveWay ht hnone [] (fun _ hu => absurd hu List.not_mem_nil)
    fun o ho hreloads => absurd hreloads (hr o ho)
  rwa [List.append_nil] at hend

theorem Tracked.fired (h : Tracked s) {i : ℕ} {isEmpty : Bool}
    (ht : s.tasks[i]? = some (.fired isEmpty)) :
    Tracked (if isEmpty then s.drop i else load (s.drop i)) := by
  cases isEmpty with
  | true => exact h.ended ht (fun _ _ => rfl) fun o ho hr => Bool.false_ne_true hr.symm
  | false =>
    show Tracked (load (s.drop i))
    cases ho : s.currentUser with
    | none =>
      have hload : load (s.drop i) = s.drop i := by simp [load, State.drop, ho]
      rw [hload]
      refine h.ended ht (fun _ _ => rfl) fun o ho' => ?_
      rw [ho] at ho'
      cases ho'
    | some o =>
      have hload : load (s.drop i) = (s.drop i).add (.asked o) := by simp [load, State.drop, ho]
      rw [hload]
      -- the load is for the user that is current now
      refine h.giveWay ht (fun _ _ => rfl) [.asked o] (List.forall_mem_singleton.mpr trivial)
        fun o' ho' _ => Or.inr ⟨.asked o, List.mem_append_right _ List.mem_cons_self, ?_⟩
      rw [ho] at ho'
      exact Option.some.inj ho'

theorem Tracked.asked (h : Tracked s) {i o : ℕ} (ht : s.tasks[i]? = some (.asked o)) (err : Bool)
    (hC : KeepsMirror s (.advance i err)) :
    Tracked ((s.drop i).add (.answered o (if err then none
      else some ((s.store.friendRequests (s.objects o).uuid).entries.map Prod.snd)))) := by
  refine h.giveWay ht (fun _ _ => rfl) [_] (List.forall_mem_singleton.mpr trivial)
    fun o' ho' hr => ?_
  obtain rfl : o = o' := hr
  cases err with
  | true =>
    simp only [KeepsMirror, ht] at hC
    rcases hC trivial ho' with hle | ⟨t, hmem, hr⟩
    · exact Or.inl hle
    · exact Or.inr ⟨t, List.mem_append_left _ hmem,
        hr.mono rfl (List.Subperm.refl _) (List.Subperm.refl _)⟩
  | false =>
    refine Or.inr ⟨_, List.mem_append_right _ List.mem_cons_self, rfl, ?_⟩
    rw [List.filterMap_map]
    exact (List.sublist_append_right _ _).subperm

/-- A task of the object `o` gives way to a change of the object. -/
theorem Tracked.setObject (h : Tracked s) {i : ℕ} {t : Task} (ht : s.tasks[i]? = some t) {u : User}
    (hu : u.uuid = (s.objects o).uuid)
    (hother : ∀ o', o' ≠ o → ∀ uuid, t.taken uuid o' = none ∧ ¬ Reloads s o' (memory s o') t)
    (hsound : s.currentUser = some o → u.friendRequests.Subperm
      (stored s (s.objects o).uuid ++ accepted (s.drop i) o))
    (hcomplete : s.currentUser = some o →
      (stored s (s.objects o).uuid).Subperm u.friendRequests ∨
        ∃ t ∈ (s.drop i).tasks, Reloads s o u.friendRequests t) :
    Tracked ((s.drop i).setObject o u) := by
  have hmem := fun u => (perm_drop ht).mem_iff (a := u)
  have hobj : ∀ o', (((s.drop i).setObject o u).objects o').uuid = (s.objects o').uuid := by
    intro o'
    by_cases hoo : o' = o <;> simp [State.setObject, State.drop, hoo, hu]
  have hself : memory ((s.drop i).setObject o u) o = u.friendRequests := by
    simp [memory, State.setObject]
  have hold : ∀ o', o' ≠ o → memory ((s.drop i).setObject o u) o' = memory s o' := by
    intro o' hoo
    simp [memory, State.setObject, State.drop, hoo]
  have haccepted : ∀ o', accepted ((s.drop i).setObject o u) o' = accepted (s.drop i) o' := by
    intro o'
    simp only [accepted, hobj]
    rfl
  refine ⟨fun v hv => h.fetched v ((hmem v).mpr (List.mem_cons_of_mem t hv)), fun o' ho' => ?_,
    fun o' ho' => ?_, fun o' ho' => ?_⟩
  · rw [hobj]
    exact h.listening o' ho'
  · rw [hobj, haccepted]
    by_cases hoo : o' = o
    · subst hoo
      rw [hself]
      exact hsound ho'
    · have hperm := accepted_drop ht o'
      rw [(hother o' hoo _).1, Option.toList_none, List.nil_append] at hperm
      rw [hold o' hoo]
      exact (h.sound o' ho').trans (hperm.append_left _).subperm
  · by_cases hoo : o' = o
    · subst hoo
      rw [UpToDate, hobj, hself]
      refine (hcomplete ho').imp id ?_
      rintro ⟨v, hv, hr⟩
      exact ⟨v, hv, hr.mono (hobj o') (List.Subperm.refl _) (List.Subperm.refl _)⟩
    · refine UpToDate.mono (hobj o') (List.Subperm.refl _) ?_ (fun v hv hr => ?_)
        (h.complete o' ho')
      · rw [hold o' hoo]
      · rcases List.mem_cons.mp ((hmem v).mp hv) with rfl | hv
        · exact absurd hr (hother o' hoo "").2
        · exact hv

theorem Tracked.answered (h : Tracked s) {i o : ℕ} {answer : Option (List Dict)}
    (ht : s.tasks[i]? = some (.answered o answer)) (err : Bool)
    (hC : KeepsMirror s (.advance i err)) :
    Tracked ((s.drop i).setObject o (loadCurrentFriendRequests (s.objects o) answer)) := by
  have hmemory : (loadCurrentFriendRequests (s.objects o) answer).friendRequests =
      memory s o ++ (answer.getD []).filterMap FriendRequest.fromStringAny := by
    cases answer with
    | none => exact (List.append_nil _).symm
    | some ds => rfl
  have haccepted : (accepted s o).Perm (accepted (s.drop i) o) := accepted_drop ht o
  refine h.setObject ht (by cases answer <;> rfl) (fun o' ho' uuid => ⟨rfl, ?_⟩) (fun ho => ?_)
    fun ho => ?_
  · cases answer with
    | none => exact id
    | some ds => exact fun hr => ho' hr.1.symm
  · rw [hmemory]
    refine List.Subperm.trans ?_ (haccepted.append_left _).subperm
    cases answer with
    | none =>
      rw [Option.getD_none, List.filterMap_nil, List.append_nil]
      exact h.sound o ho
    | some ds =>
      simp only [KeepsMirror, ht] at hC
      exact hC ho
  · rw [hmemory]
    have hgrows : (memory s o).Subperm
        (memory s o ++ (answer.getD []).filterMap FriendRequest.fromStringAny) :=
      (List.sublist_append_left _ _).subperm
    rcases h.complete o ho with hle | ⟨t, hmem, hr⟩
    · exact Or.inl (hle.trans hgrows)
    · rcases List.mem_cons.mp ((perm_drop ht).mem_iff.mp hmem) with rfl | hmem
      · -- what the answer brings is all that was missing
        cases answer with
        | none => cases hr
        | some ds => exact Or.inl hr.2
      · exact Or.inr ⟨t, hmem, hr.mono rfl (List.Subperm.refl _) hgrows⟩

theorem Tracked.accept (h : Tracked s) {origin : User} (ho : origin.friendRequests = []) :
    Tracked (accept s origin) := by
  unfold Listener.accept
  cases hcur : s.currentUser with
  | none => exact h
  | some o =>
    refine h.tasks (fun t ht => ?_) (fun o' => ?_) fun o' _ t ht _ =>
      Or.inl (List.mem_append_left _ ht)
    · rcases List.mem_append.mp ht with ht | ht
      · exact h.fetched t ht
      · rw [List.mem_singleton.mp ht]
        exact ho
    · simp only [accepted, List.filterMap_append]
      exact (List.sublist_append_left _ _).subperm

/-- The order of the tasks does not matter. -/
theorem Tracked.perm (h : Tracked s) {ts : List Task} (hp : s.tasks.Perm ts) :
    Tracked { s with tasks := ts } :=
  h.tasks (fun t ht => h.fetched t (hp.mem_iff.mpr ht)) (fun _ => (hp.filterMap _).subperm)
    fun _ _ _ ht _ => Or.inl (hp.mem_iff.mp ht)

/-- What the completion of an accept owes is removed, unless it is not there. -/
theorem Tracked.entryTaken (h : Tracked s) {i o : ℕ} {origin : User}
    (ht : s.tasks[i]? = some (.deleted o origin false)) (hcur : s.currentUser = some o) :
    ((memory s o).erase ⟨origin.uuid, (s.objects o).uuid⟩).Subperm
      (stored s (s.objects o).uuid ++ accepted (s.drop i) o) := by
  have hdrop := accepted_drop ht o
  rw [Task.taken, if_pos rfl, Option.toList_some, List.singleton_append] at hdrop
  have hle := ((h.sound o hcur).trans (hdrop.append_left _).subperm).trans
    List.perm_middle.subperm
  have herase := hle.erase ⟨origin.uuid, (s.objects o).uuid⟩
  rwa [List.erase_cons_head] at herase

/-- The completion brings nothing, so nothing more is missing without it. -/
theorem Tracked.upToDate_drop (h : Tracked s) {i o : ℕ} {origin : User} {err : Bool}
    (ht : s.tasks[i]? = some (.deleted o origin err)) (ho : s.currentUser = some o) :
    (stored s (s.objects o).uuid).Subperm (memory s o) ∨
      ∃ t ∈ (s.drop i).tasks, Reloads s o (memory s o) t := by
  refine (h.complete o ho).imp id ?_
  rintro ⟨t, hmem, hr⟩
  rcases List.mem_cons.mp ((perm_drop ht).mem_iff.mp hmem) with rfl | hmem
  · exact hr.elim
  · exact ⟨t, hmem, hr⟩

/-- The completion of an accept leaves the object as `u`. -/
theorem Tracked.completed (h : Tracked s) {i o : ℕ} {origin : User} {err : Bool}
    (ht : s.tasks[i]? = some (.deleted o origin err)) {u : User} (hu : u.uuid = (s.objects o).uuid)
    (hsound : s.currentUser = some o → u.friendRequests.Subperm
      (stored s (s.objects o).uuid ++ accepted (s.drop i) o))
    (hcomplete : s.currentUser = some o → (stored s (s.objects o).uuid).Subperm u.friendRequests ∨
      ∃ t ∈ (s.drop i).tasks, Reloads s o u.friendRequests t) :
    Tracked ((s.drop i).setObject o u) := by
  refine h.setObject ht hu (fun o' ho' uuid => ⟨?_, id⟩) hsound hcomplete
  cases err with
  | true => rfl
  | false => exact if_neg (Ne.symm ho')

/-- A user that becomes current is listened to from then on. -/
theorem Tracked.assign (h : Tracked s) {o : ℕ} (hC : KeepsMirror s (.assign o)) :
    Tracked (assign s o) := by
  have hcur : ∀ o', (Listener.assign s o).currentUser = some o' → o = o' := fun o' ho' =>
    Option.some.inj ho'
  refine ⟨fun t ht => ?_, fun o' ho' => ?_, fun o' ho' => ?_, fun o' ho' => ?_⟩
  · rcases mem_fire.mp ht with ht | ⟨-, rfl⟩
    · exact h.fetched t ht
    · trivial
  · obtain rfl := hcur o' ho'
    exact List.mem_append_right _ List.mem_cons_self
  · obtain rfl := hcur o' ho'
    exact List.Subperm.trans hC (List.sublist_append_left _ _).subperm
  · obtain rfl := hcur o' ho'
    exact upToDate_fire List.mem_cons_self

/-! ### Writes -/

section Steps

variable [DecidableEq Dict]

theorem unchanged_iff {d e : Option Dict} : unchanged d e = true ↔ d = e := by
  cases d <;> cases e <;> simp [unchanged]

/-- A write keeps the invariant if it keeps the memory within the store, and if the user was up
to date unless the write is a change of the user's collection. -/
theorem Tracked.change {receiver title : String} {st : Store}
    (hf : ∀ t ∈ s.tasks, t.Fetched)
    (hl : ∀ o, s.currentUser = some o → (s.objects o).uuid ∈ s.listeners)
    (hr : Rewritten s.store st receiver title)
    (hsound : ∀ o, s.currentUser = some o → (memory s o).Subperm
      (stored { s with store := st } (s.objects o).uuid ++ accepted s o))
    (hcomplete : ∀ o, s.currentUser = some o → ((s.objects o).uuid = receiver →
      content st receiver title = content s.store receiver title) → UpToDate s o) :
    Tracked (s.change receiver title st) := by
  have hother : ∀ o, (s.objects o).uuid ≠ receiver →
      stored { s with store := st } (s.objects o).uuid = stored s (s.objects o).uuid := by
    intro o ho
    simp only [stored, hr.others _ ho]
  obtain ⟨rest, hbefore, hafter⟩ := hr.rest
  obtain ⟨hc, hs⟩ | ⟨-, hs⟩ := change_cases s receiver title st
  · have hsame : content st receiver title = content s.store receiver title := by
      rw [content, content, unchanged_iff.mp hc]
    rw [hs]
    refine ⟨hf, hl, hsound, fun o ho => UpToDate.mono (s := s) rfl ?_ (List.Subperm.refl _)
      (fun t ht _ => ht) (hcomplete o ho fun _ => hsame)⟩
    by_cases hu : (s.objects o).uuid = receiver
    · simp only [stored, hu]
      rw [hsame] at hafter
      exact (hafter.trans hbefore.symm).subperm
    · exact (List.Perm.of_eq (hother o hu)).subperm
  · rw [hs]
    refine ⟨fun t ht => ?_, hl, fun o ho => ?_, fun o ho => ?_⟩
    · rcases mem_fire.mp ht with ht | ⟨-, rfl⟩
      · exact hf t ht
      · trivial
    · rw [accepted_fire]
      exact hsound o ho
    · by_cases hu : (s.objects o).uuid = receiver
      · subst hu
        exact upToDate_fire (s := { s with store := st }) (hl o ho)
      · exact UpToDate.mono (s := s) rfl (List.Perm.of_eq (hother o hu)).subperm
          (List.Subperm.refl _) (fun t ht _ => mem_fire.mpr (Or.inl ht))
          (hcomplete o ho fun h => absurd h hu)

theorem Tracked.write (h : Tracked s) {w : Write} (hC : KeepsMirror s (.write w)) :
    Tracked (s.write w) := by
  have hchange : ∀ receiver title st, Rewritten s.store st receiver title →
      (∀ o, s.currentUser = some o → (s.objects o).uuid = receiver →
        content st receiver title ≠ content s.store receiver title →
        ∀ r, (content s.store receiver title).join = some r →
          (memory s o).Subperm ((stored s (s.objects o).uuid).erase r ++ accepted s o)) →
      Tracked (s.change receiver title st) := fun receiver title st hr hlost =>
    Tracked.change h.fetched h.listening hr
      (fun o ho => memory_rewritten hr (h.sound o ho) (hlost o ho)) fun o ho _ => h.complete o ho
  cases w with
  | setUser uuid dict => exact ⟨h.fetched, h.listening, h.sound, h.complete⟩
  | setRequest receiver title dict =>
    refine hchange receiver title _ (rewritten_setRequest _ _ _ _) fun o ho hu hc r hr => ?_
    exact hC o ho r (by rw [lost, if_pos ⟨hu.symm, hc⟩]; exact hr)
  | deleteRequest receiver title =>
    refine hchange receiver title _ (rewritten_deleteRequest _ _ _) fun o ho hu hc r hr => ?_
    exact hC o ho r (by rw [lost, if_pos ⟨hu.symm, hc⟩]; exact hr)

/-! ### Saving the requests in memory -/

theorem change_store (s : State) (receiver title : String) (st : Store) :
    (s.change receiver title st).store = st := by
  obtain ⟨-, h⟩ | ⟨-, h⟩ := change_cases s receiver title st
  · rw [h]
  · rw [h]
    rfl

/-- Storing some requests again, each under its title. -/
theorem Tracked.saveRequests {uuid : String} {rs : List FriendRequest} (ws : List FriendRequest)
    (hws : ∀ r ∈ ws, r ∈ rs) (h : Tracked s) (hrs : Resavable s uuid rs) :
    Tracked (s.writeAll (ws.map fun r =>
      .setRequest uuid (requestTitle r.initialUser r.receivingUser) r.toFireObj)) := by
  induction ws generalizing s with
  | nil => exact h
  | cons r ws ih =>
    have hr := hws r List.mem_cons_self
    apply ih (fun r' hr' => hws r' (List.mem_cons_of_mem r hr'))
    · refine h.write fun o ho r' hr' => ?_
      simp only [lost, Option.mem_def, ite_eq_iff, and_false, or_false, reduceCtorEq] at hr'
      obtain ⟨⟨-, hne⟩, hj⟩ := hr'
      -- the document was of the request already, so no other request is lost
      obtain rfl := hrs.2 r hr r' hj
      rw [content_setRequest, if_pos rfl, FriendRequest.fromStringAny_toFireObj] at hne
      exact absurd (Option.join_eq_some_iff.mp hj).symm hne
    · refine ⟨hrs.1, fun r₁ hr₁ r' hj => ?_⟩
      rw [State.write, change_store, content_setRequest] at hj
      split_ifs at hj with ht
      · rw [FriendRequest.fromStringAny_toFireObj] at hj
        rw [hrs.1 r₁ hr₁ r hr ht]
        exact (Option.some.inj hj).symm
      · exact hrs.2 r₁ hr₁ r' hj

theorem Tracked.saveData (h : Tracked s) {u : User}
    (hu : Resavable s u.uuid u.friendRequests) : Tracked (s.writeAll (saveData u)) :=
  (h.write (w := .setUser u.uuid u.toFireObj) fun o' _ r hr => by cases hr).saveRequests
    u.friendRequests (fun _ hr => hr) hu

theorem Tracked.saveCurrent (h : Tracked s) (hC : ∀ o, s.currentUser = some o →
    Resavable s (s.objects o).uuid (memory s o)) : Tracked (saveCurrent s) := by
  unfold Listener.saveCurrent
  cases ho : s.currentUser with
  | none => exact h
  | some o => exact h.saveData (hC o ho)

/-! ### Ignoring a request -/

/-- The delete of a request that is ignored, of which the list has given up an entry. -/
theorem Tracked.ignoreDeleted (h : Tracked s) (ho : s.currentUser = some o) {m : User}
    (hm : s.objects o = m) {r : FriendRequest} {title : String}
    (hr : content s.store m.uuid title = some (some r)) :
    Tracked ((s.setObject o (m.removeRequest r)).write (.deleteRequest m.uuid title)) := by
  subst hm
  have hobj : (s.setObject o ((s.objects o).removeRequest r)).objects o =
      (s.objects o).removeRequest r := by simp [State.setObject]
  have hcur : ∀ o', (s.setObject o ((s.objects o).removeRequest r)).currentUser = some o' →
      o' = o := fun o' ho' => Option.some.inj (ho'.symm.trans ho)
  have hrw := rewritten_deleteRequest s.store (s.objects o).uuid title
  refine Tracked.change h.fetched (fun o' ho' => ?_) hrw (fun o' ho' => ?_) fun o' ho' hno => ?_
  · rw [hcur o' ho', hobj]
    exact h.listening o ho
  · rw [hcur o' ho', memory, hobj]
    obtain ⟨rest, hbefore, hafter⟩ := hrw.rest
    rw [hr] at hbefore
    rw [content_deleteRequest, if_pos rfl] at hafter
    have hstored : (stored s (s.objects o).uuid).Perm (r :: rest) := hbefore
    have haccepted : accepted (s.setObject o ((s.objects o).removeRequest r)) o = accepted s o := by
      simp only [accepted, hobj]
      rfl
    have hle : (memory s o).Subperm (r :: (rest ++ accepted s o)) :=
      (h.sound o ho).trans (hstored.append_right _).subperm
    have herase := hle.erase r
    rw [List.erase_cons_head] at herase
    rw [haccepted]
    exact herase.trans (hafter.symm.subperm.append (List.Subperm.refl _))
  · rw [hcur o' ho', hobj] at hno
    have hsame := hno rfl
    rw [content_deleteRequest, if_pos rfl] at hsame
    exact absurd (hsame.trans hr) (by simp)

/-- An ignore takes the request out of the list and its document out of the store. -/
theorem Tracked.ignore (h : Tracked s) {origin : User} (hC : KeepsMirror s (.ignore origin)) :
    Tracked (ignore s origin) := by
  unfold Listener.ignore
  cases ho : s.currentUser with
  | none => exact h
  | some o =>
    have hC' := hC o ho
    simp only
    rw [memory] at hC'
    generalize hm : s.objects o = m at hC'
    by_cases hmem : ⟨origin.uuid, m.uuid⟩ ∈ m.friendRequests
    · obtain ⟨hcontent, hinj, hsave⟩ := hC' hmem
      rw [ignoreFriendRequest_pending hmem]
      refine (h.ignoreDeleted ho hm hcontent).saveData ⟨hinj, fun r hr r' hj => ?_⟩
      change (content ((s.setObject o _).change m.uuid _ _).store m.uuid _).join = some r' at hj
      rw [change_store, content_deleteRequest] at hj
      split_ifs at hj
      · cases hj
      · exact hsave r hr r' hj
    · rw [ignoreFriendRequest_missing hmem]
      have hsame : s.setObject o m = s := by
        rw [State.setObject, ← hm, Function.update_eq_self]
      show Tracked ((s.setObject o m).writeAll [])
      rw [hsame]
      exact h

/-! ### Accepting a request -/

/-- A write is reported alike before and after a task is added, up to the order of the tasks. -/
theorem write_add (s : State) (w : Write) (t : Task) : ((s.add t).write w).tasks.Perm
    ((s.write w).add t).tasks ∧
      { (s.add t).write w with tasks := ((s.write w).add t).tasks } = (s.write w).add t := by
  have hchange : ∀ receiver title st, ((s.add t).change receiver title st).tasks.Perm
      ((s.change receiver title st).add t).tasks ∧
        { (s.add t).change receiver title st with
          tasks := ((s.change receiver title st).add t).tasks } =
            (s.change receiver title st).add t := by
    intro receiver title st
    obtain ⟨hc, h⟩ | ⟨hc, h⟩ := change_cases s receiver title st
    · have hadd : (s.add t).change receiver title st = { s.add t with store := st } := if_pos hc
      rw [h, hadd]
      exact ⟨List.Perm.refl _, rfl⟩
    · have hadd : (s.add t).change receiver title st =
          { s.add t with store := st }.fire s.listeners receiver :=
        if_neg (by rw [State.add, hc]; exact Bool.false_ne_true)
      rw [h, hadd]
      refine ⟨?_, rfl⟩
      simp only [State.fire, State.add, List.append_assoc]
      exact List.perm_append_comm.append_left _
  cases w with
  | setUser uuid dict => exact ⟨List.Perm.refl _, rfl⟩
  | setRequest receiver title dict => exact hchange receiver title _
  | deleteRequest receiver title => exact hchange receiver title _

/-- The delete of an accept: its document is gone, and its entry is owed. -/
theorem Tracked.deleting (h : Tracked s) {i o : ℕ} {origin : User}
    (ht : s.tasks[i]? = some (.deleting o origin)) (err : Bool)
    (hC : KeepsMirror s (.advance i err)) :
    Tracked (proceed (s.drop i) err (.deleting o origin)) := by
  have hfetched : origin.friendRequests = [] := h.fetched _ (List.mem_of_getElem? ht)
  have hadd : ∀ err', Tracked ((s.drop i).add (.deleted o origin err')) := fun err' =>
    h.giveWay ht (fun _ _ => rfl) [.deleted o origin err'] (List.forall_mem_singleton.mpr hfetched)
      fun o ho hr => hr.elim
  cases err with
  | true => exact hadd true
  | false =>
    simp only [KeepsMirror, ht] at hC
    obtain ⟨hperm, hstate⟩ := write_add (s.drop i)
      (acceptFriendRequest origin (s.objects o)) (.deleted o origin false)
    show Tracked (((s.drop i).write (acceptFriendRequest origin (s.objects o))).add
      (.deleted o origin false))
    rw [← hstate]
    refine Tracked.perm ((hadd false).write fun o' ho' r hr => ?_) hperm
    have haccepted : accepted ((s.drop i).add (.deleted o origin false)) o' =
        accepted (s.drop i) o' ++
          ((Task.deleted o origin false).taken (s.objects o').uuid o').toList := by
      simp only [accepted, State.add, List.filterMap_append]
      rfl
    have hdrop : (accepted s o').Perm (accepted (s.drop i) o') := accepted_drop ht o'
    show (memory s o').Subperm ((stored s (s.objects o').uuid).erase r ++ _)
    rw [haccepted]
    rcases hC trivial o' ho' r hr with ⟨rfl, rfl⟩ | hle
    · -- the entry of the document that goes away is owed from now on
      rw [Task.taken, if_pos rfl, Option.toList_some]
      have hrest : (stored s (s.objects o').uuid ++ accepted s o').Subperm
          (⟨origin.uuid, (s.objects o').uuid⟩ :: ((stored s (s.objects o').uuid).erase
            ⟨origin.uuid, (s.objects o').uuid⟩ ++ accepted (s.drop i) o')) :=
        (List.subperm_cons_erase _ _).append hdrop.subperm
      refine ((h.sound o' ho').trans hrest).trans (List.Perm.subperm ?_)
      rw [← List.append_assoc]
      exact List.perm_append_singleton _ _ |>.symm
    · refine hle.trans (List.Subperm.append (List.Subperm.refl _) ?_)
      exact hdrop.subperm.trans (List.sublist_append_left _ _).subperm

/-- A fetched user is stored without requests. -/
theorem writeAll_saveUser {u : User} (hu : u.friendRequests = []) (s : State) :
    s.writeAll (saveUser u) = s.write (.setUser u.uuid u.toFireObj) := by
  rw [saveUser, saveRequests, hu]
  rfl

theorem Tracked.saveFetched (h : Tracked s) {u : User} (hu : u.friendRequests = []) :
    Tracked (s.writeAll (saveUser u)) := by
  rw [writeAll_saveUser hu]
  exact h.write (w := .setUser _ _) fun _ _ _ hr => by cases hr

/-- The completion of an accept that finds its entry in memory. -/
theorem Tracked.pending (h : Tracked s) {i o : ℕ} {origin : User}
    (ht : s.tasks[i]? = some (.deleted o origin false))
    (hfriend : origin.username ∉ (s.objects o).friends)
    (hr : ⟨origin.uuid, (s.objects o).uuid⟩ ∈ memory s o)
    (hC : ∀ o' ∈ s.currentUser, KeepsCompletion s i o origin o') :
    Tracked (acceptDeleted (s.drop i) o origin false) := by
  have hfetched : origin.friendRequests = [] := h.fetched _ (List.mem_of_getElem? ht)
  have hself : s.currentUser = some o → Resavable s (s.objects o).uuid
      ((memory s o).erase ⟨origin.uuid, (s.objects o).uuid⟩) ∧ _ := fun ho => by
    have hCo := hC o ho
    rw [KeepsCompletion, if_neg hfriend] at hCo
    exact (if_pos rfl).mp (hCo hr)
  have hother : ∀ o', o' ≠ o → s.currentUser = some o' →
      Resavable s (s.objects o').uuid (memory s o') := fun o' hoo ho' => by
    have hCo := hC o' ho'
    rw [KeepsCompletion, if_neg hfriend] at hCo
    exact (if_neg hoo).mp (hCo hr)
  rw [acceptDeleted_of_pending (s := s.drop i) hfriend hr]
  refine Tracked.saveCurrent (Tracked.saveFetched ?_ (u := origin.addFriend _) hfetched)
    fun o' ho' => ?_
  · exact h.completed ht rfl (fun ho => h.entryTaken ht ho) fun ho => (hself ho).2
  · rw [writeAll_saveUser (u := origin.addFriend _) hfetched] at ho' ⊢
    by_cases hoo : o' = o
    · subst hoo
      rw [memory]
      show Resavable _ (((s.drop i).setObject o' _).objects o').uuid
        (((s.drop i).setObject o' _).objects o').friendRequests
      rw [State.setObject_objects]
      exact (hself ho').1
    · rw [memory]
      show Resavable _ (((s.drop i).setObject o _).objects o').uuid
        (((s.drop i).setObject o _).objects o').friendRequests
      rw [State.setObject_objects_of_ne hoo]
      exact hother o' hoo ho'

/-- The completion of an accept. -/
theorem Tracked.deleted (h : Tracked s) {i o : ℕ} {origin : User} {err : Bool}
    (ht : s.tasks[i]? = some (.deleted o origin err)) (err' : Bool)
    (hC : KeepsMirror s (.advance i err')) :
    Tracked (acceptDeleted (s.drop i) o origin err) := by
  have hfetched : origin.friendRequests = [] := h.fetched _ (List.mem_of_getElem? ht)
  cases err with
  | true => exact h.ended ht (fun _ _ => rfl) fun o ho hr => hr.elim
  | false =>
    simp only [KeepsMirror, ht] at hC
    by_cases hfriend : origin.username ∈ (s.objects o).friends
    · rw [acceptDeleted_of_friend (s := s.drop i) hfriend, ← (s.drop i).setObject_self o]
      refine h.completed ht rfl (fun ho => ?_) fun ho => h.upToDate_drop ht ho
      have hCo := hC o ho
      rw [KeepsCompletion, if_pos hfriend] at hCo
      exact hCo rfl
    · by_cases hr : ⟨origin.uuid, (s.objects o).uuid⟩ ∈ memory s o
      · exact h.pending ht hfriend hr hC
      · rw [acceptDeleted_of_missing (s := s.drop i) hfriend hr]
        refine Tracked.saveFetched ?_ (u := origin.addFriend _) hfetched
        refine h.completed ht rfl (fun ho => ?_) fun ho => h.upToDate_drop ht ho
        have htaken := h.entryTaken ht ho
        rwa [List.erase_of_not_mem hr] at htaken

/-! ### Runs -/

theorem Tracked.step (h : Tracked s) (a : Action) (hC : KeepsMirror s a) : Tracked (step s a) := by
  cases a with
  | assign o => exact h.assign hC
  | write w => exact h.write hC
  | ignore origin => exact h.ignore hC
  | accept origin =>
    simp only [Listener.step]
    split_ifs with ho
    · exact h.accept ho
    · exact h
  | advance i err =>
    simp only [Listener.step]
    cases ht : s.tasks[i]? with
    | none => exact h
    | some t =>
      cases t with
      | fired isEmpty => exact h.fired ht
      | asked o => exact h.asked ht err hC
      | answered o answer => exact h.answered ht err hC
      | deleting o origin => exact h.deleting ht err hC
      | deleted o origin err' => exact h.deleted ht err hC

end Steps

end

open PlainKit

/-- No run below stores a document over another, so they compute without a comparison. -/
noncomputable local instance decidableEqDict : DecidableEq Dict := Classical.decEq _

/-- The document of a request to Bob is stored. -/
def requestFrom (uuid : String) : Action :=
  .write (.setRequest "b" (requestTitle uuid "b") (FriendRequest.mk uuid "b").toFireObj)

/-- Ann's request is loaded, and then Cat's arrives. -/
def twoRequests : List Action :=
  [.assign 0, .advance 0 false, requestFrom "a", .advance 0 false, .advance 0 false,
    .advance 0 false, requestFrom "c", .advance 0 false, .advance 0 false, .advance 0 false]

end JamSession.Listener
