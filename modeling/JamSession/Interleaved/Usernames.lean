import JamSession.Firestore.PlainKit
import JamSession.Interleaved.Identity

/-! Unique usernames. A sign-up asks for its username first and stores its document two
answers later, and `dbContainsUsername` takes a failed query for a free name. Writes of the
friend operations keep the names of the documents, so the step that matters is the one that
stores the document of a sign-up. Proved: usernames are unique in every state of a run
exactly if each such step finds its username free; and it does when every check that lets a
sign-up go on was made while nobody had the name or was on the way to it. -/

namespace JamSession.Interleaved

open UserController JamSession.Sequential

section

variable [UIKit]

/-- No two documents have the same username. -/
def UsernamesUnique (s : State) : Prop :=
  ∀ j k n, s.store.username j = some n → s.store.username k = some n → j = k

/-- No document has the username of a sign-up whose document is stored in this step. -/
def NameFree (s : State) (a : Action) : Prop :=
  ∀ i flow u, a = .advance i false → s.tasks[i]? = some (.enrolling flow u) →
    ∀ k, s.store.username k ≠ some u.username

section Steps

variable {s s' : State} {a : Action}

/-- A new document keeps the names unique exactly if its name is free. -/
theorem usernamesUnique_iff_of_new {u : User} (hu : UsernamesUnique s)
    (hnew : s.store.username u.uuid = none) (hs : ∀ k, s'.store.username k =
      if k = u.uuid then some u.username else s.store.username k) :
    UsernamesUnique s' ↔ ∀ k, s.store.username k ≠ some u.username := by
  have hother : ∀ k n, s.store.username k = some n → s'.store.username k = some n := by
    intro k n hk
    have hne : k ≠ u.uuid := fun he => by simp [he, hnew] at hk
    rw [hs, if_neg hne, hk]
  have hself : s'.store.username u.uuid = some u.username := by rw [hs, if_pos rfl]
  constructor
  · intro h k hk
    have hkey := h k u.uuid u.username (hother k _ hk) hself
    rw [hkey, hnew] at hk
    cases hk
  · intro hfree j k n hj hk
    rw [hs] at hj hk
    split_ifs at hj hk with hju hku hku
    · rw [hju, hku]
    · cases hj
      exact absurd hk (hfree k)
    · cases hk
      exact absurd hj (hfree j)
    · exact hu j k n hj hk

theorem Identified.username_enrolling (hi : Identified s) {flow : ℕ} {u : User}
    (ht : .enrolling flow u ∈ s.tasks) : s.store.username u.uuid = none := by
  rw [Store.username, (hi.enrolling ht).2.2.2]
  rfl

theorem usernamesUnique_step_iff (hi : Identified s) (hu : UsernamesUnique s) :
    UsernamesUnique (step s a) ↔ NameFree s a := by
  by_cases hstored : ∃ i flow u, a = .advance i false ∧ s.tasks[i]? = some (.enrolling flow u)
  · obtain ⟨i, flow, u, rfl, ht⟩ := hstored
    have hs : ∀ k, (step s (.advance i false)).store.username k =
        if k = u.uuid then some u.username else s.store.username k := by
      simpa [step, ht, proceed, State.write, State.record, State.drop] using
        s.store.apply_setUser_username u.uuid u
    rw [usernamesUnique_iff_of_new hu (hi.username_enrolling (List.mem_of_getElem? ht)) hs]
    constructor
    · rintro h j flow' u' ⟨⟩ ht' k
      cases ht.symm.trans ht'
      exact h k
    · intro h
      exact h i flow u rfl ht
  · refine iff_of_true ?_ fun i flow u ha ht => absurd ⟨i, flow, u, ha, ht⟩ hstored
    obtain hsame | ⟨i, flow, u, ha, ht, -⟩ := username_next hi (next_step s a)
    · unfold UsernamesUnique
      rw [hsame]
      exact hu
    · exact absurd ⟨i, flow, u, ha, ht⟩ hstored

end Steps

theorem usernamesUnique_iff_each {s : State} (hs : Start s) (hu : UsernamesUnique s)
    (as : List Action) : Runs.Always step UsernamesUnique s as ↔ Runs.Each step NameFree s as :=
  Runs.always_iff_each (I := fun s => UsernamesUnique s ∧ Identified s ∧ AllIssued s)
    (fun _ h => h.1) (fun _ _ h => usernamesUnique_step_iff h.2.1 h.1)
    (fun s a h hfree => ⟨(usernamesUnique_step_iff h.2.1 h.1).mpr hfree,
      h.2.1.next h.2.2 (next_step s a), h.2.2.next (next_step s a)⟩)
    ⟨hu, hs.identified, hs.allIssued⟩ as

/-! ### Checks that hold -/

/-- The username that a sign-up found free and is on its way to take. -/
def Task.claims : Task → Option String
  | .answered _ _ (.signUp username) result =>
    if dbContainsUsername result then none else some username
  | .creating _ username => some username
  | .enrolling _ u => some u.username
  | _ => none

/-- A check that lets a sign-up go on is answered while no document has the name and no other
sign-up is on its way to take it. -/
def CheckedAlone (s : State) (a : Action) : Prop :=
  ∀ i err flow c username q, a = .advance i err →
    s.tasks[i]? = some (.asked flow c (.signUp username) q) →
    dbContainsUsername (if err then .error .firebaseError else q.answer s.store.users) = false →
      username ∉ s.tasks.filterMap Task.claims ∧ ∀ k, s.store.username k ≠ some username

/-- The claimed names are distinct, and no document has one of them. -/
structure Reserved (s : State) : Prop where
  nodup : (s.tasks.filterMap Task.claims).Nodup
  free : ∀ n ∈ s.tasks.filterMap Task.claims, ∀ k, s.store.username k ≠ some n

section Reserved

variable {s s' : State} {a : Action}

theorem claims_drop {i : ℕ} {t : Task} (ht : s.tasks[i]? = some t) :
    (s.tasks.filterMap Task.claims).Perm
      (t.claims.toList ++ (s.drop i).tasks.filterMap Task.claims) := by
  have hperm := (perm_drop ht).filterMap Task.claims
  cases hc : t.claims with
  | none => rwa [List.filterMap_cons_none hc] at hperm
  | some n => rwa [List.filterMap_cons_some hc] at hperm

theorem claims_append {ts ts' : List Task} (h : ∀ t ∈ ts', t.claims = none) :
    (ts ++ ts').filterMap Task.claims = ts.filterMap Task.claims := by
  rw [List.filterMap_append, List.filterMap_eq_nil_iff.mpr h, List.append_nil]

/-- A task is replaced by one with the same claim. -/
theorem claims_moved {i : ℕ} {t u : Task} (ht : s.tasks[i]? = some t) (hc : u.claims = t.claims) :
    (((s.drop i).add u).tasks.filterMap Task.claims).Perm (s.tasks.filterMap Task.claims) := by
  refine List.Perm.trans ?_ (claims_drop ht).symm
  rw [State.add, List.filterMap_append, ← hc]
  refine List.perm_append_comm.trans (List.Perm.append_right _ ?_)
  cases hc' : u.claims <;> simp [hc']

/-- Claims are new only when a check is answered. -/
theorem claims_next (hn : Next s a s') (ha : ¬ ∃ i err flow c username q, a = .advance i err ∧
    s.tasks[i]? = some (.asked flow c (.signUp username) q)) :
    (s'.tasks.filterMap Task.claims).Subperm (s.tasks.filterMap Task.claims) := by
  have hdrop : ∀ i ts, (∀ t ∈ ts, t.claims = none) →
      (((s.drop i).tasks ++ ts).filterMap Task.claims).Subperm (s.tasks.filterMap Task.claims) := by
    intro i ts hts
    rw [claims_append hts]
    exact ((List.eraseIdx_sublist s.tasks i).filterMap _).subperm
  have hadd : ∀ t : Task, t.claims = none →
      ((s.tasks ++ [t]).filterMap Task.claims).Subperm (s.tasks.filterMap Task.claims) := by
    intro t ht
    rw [claims_append fun t' ht' => List.mem_singleton.mp ht' ▸ ht]
  have hone : ∀ i t, t.claims = none →
      (((s.drop i).add t).tasks.filterMap Task.claims).Subperm (s.tasks.filterMap Task.claims) :=
    fun i t ht => hdrop i [t] fun t' ht' => List.mem_singleton.mp ht' ▸ ht
  have hnone : ∀ i, ((s.drop i).tasks.filterMap Task.claims).Subperm
      (s.tasks.filterMap Task.claims) :=
    fun i => ((List.eraseIdx_sublist s.tasks i).filterMap _).subperm
  have hwriting : ∀ i k (ws : List Write), (((s.drop i).tasks ++ ws.map (Task.writing k)).filterMap
      Task.claims).Subperm (s.tasks.filterMap Task.claims) := by
    intro i k ws
    refine hdrop i _ fun t ht => ?_
    obtain ⟨w, -, rfl⟩ := List.mem_map.mp ht
    rfl
  cases hn with
  | stay hs => exact List.Subperm.refl _
  | lookup ha c p q hp => exact hadd _ rfl
  | tapped ha c m r hm hr => exact hadd _ rfl
  | load ha c m hm => exact hadd _ rfl
  | ended i err t ht he => exact hnone i
  | answer i err flow c p q ht result hr =>
    refine hone i _ ?_
    cases p with
    | signUp username => exact absurd ⟨i, err, flow, c, username, q, rfl, ht⟩ ha
    | logIn => rfl
    | check username => rfl
    | call op => rfl
  | free i err flow c username result ht hr =>
    exact (claims_moved ht (by simp [Task.claims, hr])).subperm
  | loggedIn i err flow c u ht hc => exact hnone i
  | checked i err flow c username result ht hr => exact hone i _ rfl
  | called i err k ht hm =>
    unfold State.call
    split_ifs
    · exact hone i _ rfl
    · exact hwriting i k _
  | loadAnswer i err flow c uuid ht answer ha => exact hone i _ rfl
  | loaded i err flow c answer ht m hm => exact hnone i
  | stored i k w ht => exact hnone i
  | deleteFailed i k ht => exact hone i _ rfl
  | deleteStored i k ht => exact hone i _ rfl
  | completed i err err' k ht m hm => exact hwriting i _ _
  | created i flow username uid ht hu =>
    exact (claims_moved (u := .enrolling flow (makeUserInDB username uid)) ht rfl).subperm
  | enrollFailed i flow u ht => exact hnone i
  | enrolled i flow u ht => exact hnone i

theorem Reserved.of_subperm (h : Reserved s)
    (hc : (s'.tasks.filterMap Task.claims).Subperm (s.tasks.filterMap Task.claims))
    (hfree : ∀ n ∈ s'.tasks.filterMap Task.claims, ∀ k, s'.store.username k ≠ some n) :
    Reserved s' := by
  obtain ⟨l, hl, hsub⟩ := hc
  exact ⟨hl.nodup_iff.mp (h.nodup.sublist hsub), hfree⟩

/-- A sign-up that goes on has a name of its own. -/
theorem Reserved.asked (h : Reserved s) (hc : CheckedAlone s a) {i flow c : ℕ} {err : Bool}
    {username : String} {q : Query} (ha : a = .advance i err)
    (ht : s.tasks[i]? = some (.asked flow c (.signUp username) q)) : Reserved (step s a) := by
  subst ha
  have hdrop : (s.tasks.filterMap Task.claims).Perm ((s.drop i).tasks.filterMap Task.claims) :=
    claims_drop ht
  obtain ⟨result, hresult⟩ : ∃ result : Except ManErr User, result =
    if err then .error .firebaseError else q.answer s.store.users := ⟨_, rfl⟩
  have hs : step s (.advance i err) =
      (s.drop i).add (.answered flow c (.signUp username) result) := by
    simp only [step, ht, proceed, hresult]
    rfl
  have hclaims : (step s (.advance i err)).tasks.filterMap Task.claims =
      (s.drop i).tasks.filterMap Task.claims ++
        (if dbContainsUsername result then none else some username).toList := by
    rw [hs, State.add, List.filterMap_append]
    cases hcont : dbContainsUsername result <;> simp [Task.claims, hcont]
  have hold : ∀ n ∈ (s.drop i).tasks.filterMap Task.claims, ∀ k, s.store.username k ≠ some n :=
    fun n hn => h.free n (hdrop.mem_iff.mpr hn)
  have hnodup := hdrop.nodup_iff.mp h.nodup
  cases hcont : dbContainsUsername result with
  | true =>
    rw [if_pos hcont, Option.toList_none, List.append_nil] at hclaims
    refine ⟨hclaims ▸ hnodup, fun n hn => ?_⟩
    rw [hclaims] at hn
    rw [hs]
    exact hold n hn
  | false =>
    obtain ⟨hnew, hfree⟩ := hc i err flow c username q rfl ht (hresult ▸ hcont)
    rw [hcont, if_neg Bool.false_ne_true, Option.toList_some] at hclaims
    have hnew' : username ∉ (s.drop i).tasks.filterMap Task.claims := fun hn =>
      hnew (hdrop.mem_iff.mpr hn)
    refine ⟨?_, fun n hn => ?_⟩
    · rw [hclaims]
      exact (List.perm_append_singleton _ _).nodup_iff.mpr (List.nodup_cons.mpr ⟨hnew', hnodup⟩)
    · rw [hclaims] at hn
      rw [hs]
      rcases List.mem_append.mp hn with hn | hn
      · exact hold n hn
      · rw [List.mem_singleton.mp hn]
        exact hfree

theorem Reserved.step (h : Reserved s) (hi : Identified s) (hc : CheckedAlone s a) :
    Reserved (step s a) := by
  by_cases hasked : ∃ i err flow c username q, a = .advance i err ∧
      s.tasks[i]? = some (.asked flow c (.signUp username) q)
  · obtain ⟨i, err, flow, c, username, q, ha, ht⟩ := hasked
    exact h.asked hc ha ht
  have hn := next_step s a
  have hsub := claims_next hn hasked
  refine h.of_subperm hsub fun n hmem k => ?_
  obtain hsame | ⟨i, flow, u, rfl, ht, hs⟩ := username_next hi hn
  · rw [hsame]
    exact h.free n (hsub.subset hmem) k
  · -- the claim of the stored document is gone, and the other claims are for other names
    have hnodup := (claims_drop ht).nodup_iff.mp h.nodup
    have htasks : (JamSession.Interleaved.step s (.advance i false)).tasks = (s.drop i).tasks := by
      simp only [JamSession.Interleaved.step, ht, proceed]
      rfl
    rw [htasks] at hmem
    have hne : u.username ≠ n := fun he =>
      (List.nodup_cons.mp hnodup).1 (he ▸ hmem)
    rw [hs]
    split_ifs with hk
    · exact fun he => hne (Option.some.inj he)
    · exact h.free n (hsub.subset (htasks ▸ hmem)) k

theorem Reserved.nameFree (h : Reserved s) : NameFree s a := by
  rintro i flow u - ht
  exact h.free u.username (List.mem_filterMap.mpr ⟨_, List.mem_of_getElem? ht, rfl⟩)

end Reserved

/-- Usernames are unique when a sign-up only goes on with a name that is its own. -/
theorem usernamesUnique_of_checkedAlone {s : State} (hs : Start s) (hu : UsernamesUnique s)
    {as : List Action} (hc : Runs.Each step CheckedAlone s as) :
    Runs.Always step UsernamesUnique s as := by
  have hreserved : Reserved s := by
    constructor <;> simp [hs.tasks]
  refine (Runs.always_of_each (C := CheckedAlone)
    (I := fun s => UsernamesUnique s ∧ Reserved s ∧ Identified s ∧ AllIssued s)
    (fun s a h hc => ⟨(usernamesUnique_step_iff h.2.2.1 h.1).mpr h.2.1.nameFree,
      h.2.1.step h.2.2.1 hc, h.2.2.1.next h.2.2.2 (next_step s a), h.2.2.2.next (next_step s a)⟩)
    ⟨hu, hreserved, hs.identified, hs.allIssued⟩ hc).mono fun _ h => h.1

/-- In every run usernames are unique in every state exactly if every sign-up whose document
is stored finds its name free at that step; and all do when a sign-up only goes on with a name
that is its own. -/
theorem usernamesUnique_iff_steps {s : State} (hs : Start s) (hu : UsernamesUnique s)
    (as : List Action) :
    (Runs.Always step UsernamesUnique s as ↔ Runs.Each step NameFree s as) ∧
      (Runs.Each step CheckedAlone s as → Runs.Each step NameFree s as) := by
  have hiff := usernamesUnique_iff_each hs hu as
  exact ⟨hiff, fun hc => hiff.mp (usernamesUnique_of_checkedAlone hs hu hc)⟩

/-! ### The condition on a step, decided -/

theorem forall_username_ne {st : Store} {n : String} : (∀ k, st.username k ≠ some n) ↔
    ∀ e ∈ st.users.entries, e.2.string "username" ≠ some n := by
  constructor
  · intro h e he hn
    refine h e.1 ?_
    rw [Store.username, (st.users.get?_eq_some_iff).mpr he]
    exact hn
  · intro h k hk
    obtain ⟨d, hd, hn⟩ := Option.bind_eq_some_iff.mp hk
    exact h (k, d) (st.users.get?_eq_some_iff.mp hd) hn

/-- The user whose document an action stores for a sign-up. -/
def enrolls (s : State) : Action → Option User
  | .advance i false => match s.tasks[i]? with
    | some (.enrolling _ u) => some u
    | _ => none
  | _ => none

theorem enrolls_eq_some {s : State} {a : Action} {u : User} : enrolls s a = some u ↔
    ∃ i flow, a = .advance i false ∧ s.tasks[i]? = some (.enrolling flow u) := by
  constructor
  · intro h
    unfold enrolls at h
    split at h
    · split at h
      · cases h
        exact ⟨_, _, rfl, ‹_›⟩
      · cases h
    · cases h
  · rintro ⟨i, flow, rfl, ht⟩
    simp only [enrolls, ht]

instance (s : State) (a : Action) : Decidable (NameFree s a) :=
  decidable_of_iff (∀ u ∈ enrolls s a, ∀ e ∈ s.store.users.entries,
    e.2.string "username" ≠ some u.username) (by
      simp only [← forall_username_ne, Option.mem_def, enrolls_eq_some]
      exact ⟨fun h i flow u ha ht => h u ⟨i, flow, ha, ht⟩,
        fun h u ⟨i, flow, ha, ht⟩ => h i flow u ha ht⟩)

end

open PlainKit

/-! ### Sign-ups in an empty collection -/

/-- Ann and Bob sign up, and a second sign-up for Ann's name ends at its check. -/
def annAndBob : List Action := List.flatten [
  [.signUp 0 "ann"], advances 0 2, [.createUser 0 "a"], advances 0 1,
  [.signUp 1 "bob"], advances 0 2, [.createUser 0 "b"], [.signUp 2 "ann"], advances 0 3]

theorem usernamesUnique_iff_steps_annAndBob :
    (Runs.run step (signedUp []) annAndBob).store.username "a" = some "ann" ∧
      (Runs.run step (signedUp []) annAndBob).store.username "b" = some "bob" ∧
      (Runs.run step (signedUp []) annAndBob).tasks.isEmpty ∧
      Runs.Always step UsernamesUnique (signedUp []) annAndBob := by
  have hstart : UsernamesUnique (signedUp []) := by
    intro j k n hj
    cases hj
  have hiff := (usernamesUnique_iff_steps (initial_signedUp _).start hstart annAndBob).1
  exact ⟨by decide +kernel, by decide +kernel, by decide +kernel, hiff.mpr (by decide +kernel)⟩

/-- Two clients ask for the free name before either stores its document. -/
def bothAnn : List Action := List.flatten [
  [.signUp 0 "ann", .signUp 1 "ann"], advances 0 4,
  [.createUser 0 "a", .createUser 0 "b"], advances 0 2]

theorem bothAnn_taken : ¬ Runs.Always step UsernamesUnique (signedUp []) bothAnn := by
  intro h
  have hend : UsernamesUnique (Runs.run step (signedUp []) bothAnn) := h.last
  have hkey := hend "a" "b" "ann" (by decide +kernel) (by decide +kernel)
  exact absurd hkey (by decide)

end JamSession.Interleaved
