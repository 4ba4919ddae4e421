import JamSession.Firestore.PlainKit
import JamSession.Interleaved.Identity

/-! Sign-ups between two stores. `authUser` makes an account and then a document for it, and
its completion runs when the answer to the document's `setData` is there, whatever the answer
is. Runs of sign-ups alone, in any number at a time: an attempt completes exactly if it has
both its account and its document, and every account can log in, as long as no `setData` is
rejected; a rejected one leaves an account that never has a document. -/

namespace JamSession.Interleaved

open UserController LoginController JamSession.Sequential

section

variable [UIKit]

/-- `logInButtonTapped` with the credentials of the account `uid`, when no query fails. -/
def State.logInButtonTapped (s : State) (uid : String) : Except ManErr User :=
  (loginUser (signIn s.accounts uid)).bind (grabUserFromUuid s.store.users false)

/-- The account `uid` is waiting for its document. -/
def Enrolling (s : State) (uid : String) : Prop :=
  ∃ flow u, .enrolling flow u ∈ s.tasks ∧ u.uuid = uid

/-- Sign-ups leave an account together with its document, or neither of the two. The attempt
`flow` has got as far as an account when `created flow uid` is in the log. -/
structure Atomic (s : State) : Prop where
  completed : ∀ flow uid, .completed flow uid ∈ s.log → .created flow uid ∈ s.log
  both : ∀ flow uid, .created flow uid ∈ s.log → (.completed flow uid ∈ s.log ↔
    (s.accounts uid).isSome ∧ (s.store.users.get? uid).isSome)
  ended : ∀ flow uid, .created flow uid ∈ s.log → .completed flow uid ∉ s.log →
    ¬ Enrolling s uid → s.accounts uid = none ∧ s.store.users.get? uid = none
  logIn : ∀ uid, (s.accounts uid).isSome → ¬ Enrolling s uid →
    ∃ u, s.logInButtonTapped uid = .ok u ∧ u.uuid = uid

/-- The `setData` of a sign-up's document is not rejected in this step. -/
def Acknowledged (s : State) (a : Action) : Prop :=
  ∀ i flow u, a = .advance i true → s.tasks[i]? ≠ some (.enrolling flow u)

/-! ### Runs of sign-ups -/

def Action.SignsUp : Action → Prop
  | .signUp _ _ | .createUser _ _ | .advance _ _ => True
  | _ => False

def Task.SignsUp : Task → Prop
  | .asked _ _ (.signUp _) _ | .answered _ _ (.signUp _) _ | .creating _ _ | .enrolling _ _ => True
  | _ => False

/-- What the log says about the sign-ups, in runs whose writes may be rejected. -/
structure SignUpsLogged (s : State) : Prop where
  tasks : ∀ t ∈ s.tasks, t.SignsUp
  created : ∀ flow uid, .created flow uid ∈ s.log → .completed flow uid ∈ s.log ∨
    ∃ u, .enrolling flow u ∈ s.tasks ∧ u.uuid = uid
  completed : ∀ flow uid, .completed flow uid ∈ s.log → .created flow uid ∈ s.log
  enrolling : ∀ flow u, .enrolling flow u ∈ s.tasks → .created flow u.uuid ∈ s.log

/-- The steps of a run of sign-ups. -/
inductive SignUpStep (s : State) : Action → State → Prop
  | tasks {a : Action} (ts : List Task) (n : ℕ) (hts : ∀ t ∈ ts, t.SignsUp)
      (henrolling : ∀ flow u, .enrolling flow u ∈ ts ↔ .enrolling flow u ∈ s.tasks)
      (ha : Acknowledged s a) : SignUpStep s a { s with tasks := ts, next := n }
  | created (i flow : ℕ) (username uid : String)
      (ht : s.tasks[i]? = some (.creating flow username)) (hu : s.accounts uid = none) :
      SignUpStep s (.createUser i uid) ((s.drop i).enrol flow username uid)
  | rejected (i flow : ℕ) (u : User) (ht : s.tasks[i]? = some (.enrolling flow u)) :
      SignUpStep s (.advance i true) ((s.drop i).record (.completed flow u.uuid))
  | enrolled (i flow : ℕ) (u : User) (ht : s.tasks[i]? = some (.enrolling flow u)) :
      SignUpStep s (.advance i false)
        (((s.drop i).write (.setUser u.uuid u.toFireObj)).record (.completed flow u.uuid))

section Steps

variable {s s' : State} {a : Action}

/-- A step that only moves tasks, none of them an enrolling one. -/
theorem signUpStep_moved {i : ℕ} {err : Bool} {t : Task} (ht : s.tasks[i]? = some t)
    (htask : ∀ flow u, t ≠ .enrolling flow u) {ts : List Task}
    (hs : ∀ t ∈ s.tasks, t.SignsUp) (hts : ∀ t' ∈ ts, t'.SignsUp ∧ ∀ flow u, t' ≠ .enrolling flow u) :
    SignUpStep s (.advance i err) { s.drop i with tasks := (s.drop i).tasks ++ ts } := by
  refine .tasks _ s.next (fun t' ht' => ?_) (fun flow u => ?_) ?_
  · rcases List.mem_append.mp ht' with ht' | ht'
    · exact hs t' (mem_of_mem_drop ht')
    · exact (hts t' ht').1
  · have hmem := (perm_drop ht).mem_iff (a := .enrolling flow u)
    rw [List.mem_cons] at hmem
    rw [List.mem_append, hmem]
    constructor
    · rintro (h | h)
      · exact Or.inr h
      · exact absurd rfl ((hts _ h).2 flow u)
    · rintro (h | h)
      · exact absurd h.symm (htask flow u)
      · exact Or.inl h
  · rintro j flow u ⟨⟩ hj
    exact htask flow u (Option.some.inj (ht.symm.trans hj))

/-- A step that ends a task, not an enrolling one. -/
theorem signUpStep_dropped {i : ℕ} {err : Bool} {t : Task} (ht : s.tasks[i]? = some t)
    (htask : ∀ flow u, t ≠ .enrolling flow u) (hs : ∀ t ∈ s.tasks, t.SignsUp) :
    SignUpStep s (.advance i err) (s.drop i) := by
  have h : SignUpStep s (.advance i err) { s.drop i with tasks := (s.drop i).tasks ++ [] } :=
    signUpStep_moved ht htask hs (by simp)
  rwa [List.append_nil] at h

/-- A step that ends a task and starts another, neither an enrolling one. -/
theorem signUpStep_added {i : ℕ} {err : Bool} {t t' : Task} (ht : s.tasks[i]? = some t)
    (htask : ∀ flow u, t ≠ .enrolling flow u) (hs : ∀ t ∈ s.tasks, t.SignsUp) (hsign : t'.SignsUp)
    (htask' : ∀ flow u, t' ≠ .enrolling flow u) :
    SignUpStep s (.advance i err) ((s.drop i).add t') := by
  refine signUpStep_moved ht htask hs fun t ht => ?_
  rw [List.mem_singleton.mp ht]
  exact ⟨hsign, htask'⟩

theorem signUpStep (hs : ∀ t ∈ s.tasks, t.SignsUp) (ha : a.SignsUp) : SignUpStep s a (step s a) := by
  have hidle : ∀ a, Acknowledged s a → SignUpStep s a s := fun a ha =>
    .tasks s.tasks s.next hs (fun _ _ => Iff.rfl) ha
  cases a with
  | signUp c username =>
    refine .tasks _ _ (fun t ht => ?_) (fun flow u => ?_) fun _ _ _ hj => ?_
    · rcases List.mem_append.mp ht with ht | ht
      · exact hs t ht
      · rw [List.mem_singleton.mp ht]
        trivial
    · simp
    · cases hj
  | createUser i uid =>
    simp only [step]
    split
    · exact .created i _ _ uid ‹_› ‹_›
    · exact hidle _ fun _ _ _ hj => by cases hj
  | advance i err =>
    simp only [step]
    cases ht : s.tasks[i]? with
    | none =>
      refine hidle _ fun j flow u hj ht' => ?_
      cases hj
      cases ht.symm.trans ht'
    | some t =>
      have htask := hs t (List.mem_of_getElem? ht)
      cases t with
      | asked flow c p q =>
        cases p with
        | signUp username =>
          simp only [proceed]
          exact signUpStep_added ht (by simp) hs trivial (by simp)
        | _ => cases htask
      | answered flow c p result =>
        cases p with
        | signUp username =>
          simp only [proceed, answered]
          split_ifs
          · exact signUpStep_dropped ht (by simp) hs
          · exact signUpStep_added ht (by simp) hs trivial (by simp)
        | _ => cases htask
      | creating flow username => exact signUpStep_dropped ht (by simp) hs
      | enrolling flow u =>
        cases err with
        | false => exact .enrolled i flow u ht
        | true => exact .rejected i flow u ht
      | _ => cases htask
  | _ => cases ha

theorem enrolling_drop {i flow flow' : ℕ} {u u' : User}
    (ht : s.tasks[i]? = some (.enrolling flow u)) :
    .enrolling flow' u' ∈ s.tasks ↔
      flow' = flow ∧ u' = u ∨ .enrolling flow' u' ∈ (s.drop i).tasks := by
  rw [(perm_drop ht).mem_iff, List.mem_cons, Task.enrolling.injEq]

/-- The completion of an attempt runs. -/
theorem SignUpsLogged.complete (h : SignUpsLogged s) {i flow : ℕ} {u : User}
    (ht : s.tasks[i]? = some (.enrolling flow u)) (htasks : s'.tasks = (s.drop i).tasks)
    (hlog : s'.log = .completed flow u.uuid :: s.log) : SignUpsLogged s' := by
  have hin : ∀ t ∈ s'.tasks, t ∈ s.tasks := fun t ht' => mem_of_mem_drop (htasks ▸ ht')
  have hold : ∀ e ∈ s.log, e ∈ s'.log := fun e he => hlog ▸ List.mem_cons_of_mem _ he
  refine ⟨fun t ht' => h.tasks t (hin t ht'), fun flow' uid' hc => ?_, fun flow' uid' hd => ?_,
    fun flow' u' hu' => hold _ (h.enrolling flow' u' (hin _ hu'))⟩
  · rw [hlog, List.mem_cons] at hc
    rcases h.created flow' uid' (hc.resolve_left nofun) with hdone | ⟨u', hu', hid⟩
    · exact Or.inl (hold _ hdone)
    · rcases (enrolling_drop ht).mp hu' with ⟨rfl, rfl⟩ | hu'
      · left
        rw [hlog, hid]
        exact List.mem_cons_self
      · exact Or.inr ⟨u', htasks ▸ hu', hid⟩
  · rw [hlog, List.mem_cons] at hd
    rcases hd with hd | hd
    · cases hd
      exact hold _ (h.enrolling flow u (List.mem_of_getElem? ht))
    · exact hold _ (h.completed flow' uid' hd)

theorem SignUpsLogged.next (h : SignUpsLogged s) (hn : SignUpStep s a s') : SignUpsLogged s' := by
  cases hn with
  | tasks ts n hts henrolling ha =>
    refine ⟨hts, fun flow uid hc => ?_, h.completed, fun flow u hu => ?_⟩
    · rcases h.created flow uid hc with hdone | ⟨u, hu, hid⟩
      · exact Or.inl hdone
      · exact Or.inr ⟨u, (henrolling flow u).mpr hu, hid⟩
    · exact h.enrolling flow u ((henrolling flow u).mp hu)
  | created i flow username uid ht hu =>
    have hold : ∀ flow' u', .enrolling flow' u' ∈ s.tasks →
        .enrolling flow' u' ∈ ((s.drop i).enrol flow username uid).tasks := by
      intro flow' u' hu'
      rw [(perm_drop ht).mem_iff, List.mem_cons] at hu'
      exact List.mem_append_left _ (hu'.resolve_left nofun)
    refine ⟨fun t ht' => ?_, fun flow' uid' hc => ?_, fun flow' uid' hd => ?_, fun flow' u' hu' => ?_⟩
    · rcases List.mem_append.mp ht' with ht' | ht'
      · exact h.tasks t (mem_of_mem_drop ht')
      · rw [List.mem_singleton.mp ht']
        trivial
    · rcases List.mem_cons.mp hc with hc | hc
      · cases hc
        exact Or.inr ⟨_, List.mem_append_right _ (List.mem_singleton_self _), rfl⟩
      · rcases h.created flow' uid' hc with hdone | ⟨u', hu', hid⟩
        · exact Or.inl (List.mem_cons_of_mem _ hdone)
        · exact Or.inr ⟨u', hold flow' u' hu', hid⟩
    · rcases List.mem_cons.mp hd with hd | hd
      · cases hd
      · exact List.mem_cons_of_mem _ (h.completed flow' uid' hd)
    · rcases List.mem_append.mp hu' with hu' | hu'
      · exact List.mem_cons_of_mem _ (h.enrolling flow' u' (mem_of_mem_drop hu'))
      · cases List.mem_singleton.mp hu'
        exact List.mem_cons_self
  | rejected i flow u ht => exact h.complete ht rfl rfl
  | enrolled i flow u ht => exact h.complete ht rfl rfl

/-! ### Accounts with documents -/

/-- What holds as long as no document was rejected: every account has its document, or is
waiting for it, and every document can be read. -/
structure Served (s : State) : Prop where
  accounts : ∀ uid, (s.accounts uid).isSome →
    (s.store.users.get? uid).isSome ∨ Enrolling s uid
  stored : ∀ flow uid, .completed flow uid ∈ s.log → (s.store.users.get? uid).isSome
  readable : ∀ k d, s.store.users.get? k = some d → (User.fromStringAny d).isSome

/-- With the bundled picture, a sign-up writes a readable document. -/
theorem makeUserInDB_readable (hblank : ((UIKit.jpegData UIKit.blank).bind UIKit.ofData).isSome)
    (username uuid : String) : (User.fromStringAny (makeUserInDB username uuid).toFireObj).isSome := by
  obtain ⟨pfp, hpfp⟩ := Option.isSome_iff_exists.mp hblank
  obtain ⟨data, hjpeg, hdata⟩ := Option.bind_eq_some_iff.mp hpfp
  simp [User.fromStringAny, makeUserInDB, User.init, hjpeg, hdata]

theorem Served.next (hblank : ((UIKit.jpegData UIKit.blank).bind UIKit.ofData).isSome)
    (h : Served s) (hi : Identified s) (hc : Acknowledged s a) (hn : SignUpStep s a s') :
    Served s' := by
  cases hn with
  | tasks ts n hts henrolling ha =>
    refine ⟨fun uid hu => ?_, h.stored, h.readable⟩
    rcases h.accounts uid hu with hd | ⟨flow, u, ht, hid⟩
    · exact Or.inl hd
    · exact Or.inr ⟨flow, u, (henrolling flow u).mpr ht, hid⟩
  | created i flow username uid ht hu =>
    refine ⟨fun uid' hu' => ?_, fun flow' uid' hd => ?_, h.readable⟩
    · by_cases hid : uid' = uid
      · exact Or.inr ⟨flow, _, List.mem_append_right _ (List.mem_singleton_self _), hid.symm⟩
      · simp only [State.enrol, Function.update_of_ne hid] at hu'
        rcases h.accounts uid' hu' with hd | ⟨flow', u', ht', hid'⟩
        · exact Or.inl hd
        · rw [(perm_drop ht).mem_iff, List.mem_cons] at ht'
          exact Or.inr ⟨flow', u', List.mem_append_left _ (ht'.resolve_left (by simp)), hid'⟩
    · exact h.stored flow' uid' ((List.mem_cons.mp hd).resolve_left (by simp))
  | rejected i flow u ht => exact absurd ht (hc i flow u rfl)
  | enrolled i flow u ht =>
    have hget : ∀ k, (s.store.users.set u.uuid u.toFireObj).get? k =
        if k = u.uuid then some u.toFireObj else s.store.users.get? k :=
      s.store.users.get?_set u.uuid u.toFireObj
    have hsome : ∀ k, k = u.uuid ∨ (s.store.users.get? k).isSome →
        ((s.store.users.set u.uuid u.toFireObj).get? k).isSome := by
      intro k hk
      rw [hget]
      split_ifs with hku
      · rfl
      · exact hk.resolve_left hku
    refine ⟨fun uid hu => ?_, fun flow' uid hd => hsome uid ?_, fun k d hd => ?_⟩
    · rcases h.accounts uid hu with hd | ⟨flow', u', ht', hid⟩
      · exact Or.inl (hsome uid (Or.inr hd))
      · rcases (enrolling_drop ht).mp ht' with ⟨rfl, rfl⟩ | ht'
        · exact Or.inl (hsome uid (Or.inl hid.symm))
        · exact Or.inr ⟨flow', u', ht', hid⟩
    · rcases List.mem_cons.mp hd with hd | hd
      · cases hd
        exact Or.inl rfl
      · exact Or.inr (h.stored flow' uid hd)
    · change (s.store.users.set u.uuid u.toFireObj).get? k = some d at hd
      rw [hget] at hd
      split_ifs at hd
      · obtain ⟨username, hu, -⟩ : ∃ username, u = makeUserInDB username u.uuid ∧
          s.accounts u.uuid = some username := hi.tasks _ (List.mem_of_getElem? ht)
        rw [← Option.some.inj hd, hu]
        exact makeUserInDB_readable hblank username u.uuid
      · exact h.readable k d hd

theorem Served.atomic (h : Served s) (hr : SignUpsLogged s) (hi : Identified s) : Atomic s := by
  have hwaits : ∀ uid, Enrolling s uid → s.store.users.get? uid = none := by
    rintro uid ⟨flow, u, ht, rfl⟩
    exact (hi.enrolling ht).2.2.2
  refine ⟨hr.completed, fun flow uid hc => ⟨fun hd => ?_, fun ⟨ha, hd⟩ => ?_⟩,
    fun flow uid hc hd hwait => ?_, fun uid ha hwait => ?_⟩
  · have hstored := h.stored flow uid hd
    obtain ⟨d, hget⟩ := Option.isSome_iff_exists.mp hstored
    obtain ⟨u, -, rfl, hknown⟩ := hi.coherent uid d hget
    exact ⟨by rw [hknown]; rfl, hstored⟩
  · rcases hr.created flow uid hc with hdone | ⟨u, ht, hid⟩
    · exact hdone
    · rw [hwaits uid ⟨flow, u, ht, hid⟩] at hd
      cases hd
  · rcases hr.created flow uid hc with hdone | ⟨u, ht, hid⟩
    · exact absurd hdone hd
    · exact absurd ⟨flow, u, ht, hid⟩ hwait
  · have hstored := (h.accounts uid ha).resolve_right hwait
    obtain ⟨d, hget⟩ := Option.isSome_iff_exists.mp hstored
    obtain ⟨u, hu⟩ := Option.isSome_iff_exists.mp (h.readable uid d hget)
    have hfound : grabUserFromUuid s.store.users false uid = .ok u := by
      simp [grabUserFromUuid, hi.coherent.usersWhere_uuid, hget, grabUser, hu]
    refine ⟨u, ?_, grabUserFromUuid_uuid hfound⟩
    rw [State.logInButtonTapped, signIn, if_pos ha]
    exact hfound

end Steps

/-- An account that can log in: a rejected document leaves one that cannot. -/
theorem atomic_step_iff (hblank : ((UIKit.jpegData UIKit.blank).bind UIKit.ofData).isSome)
    {s : State} (h : Served s) (hr : SignUpsLogged s) (hi : Identified s) (hissued : AllIssued s)
    {a : Action} (ha : a.SignsUp) : Atomic (step s a) ↔ Acknowledged s a := by
  have hn := signUpStep hr.tasks ha
  constructor
  · rintro hatomic i flow u rfl ht
    have hs : step s (.advance i true) = (s.drop i).record (.completed flow u.uuid) := by
      simp only [step, ht, proceed]
      rfl
    rw [hs] at hatomic
    have hcreated := List.mem_cons_of_mem (.completed flow u.uuid)
      (hr.enrolling flow u (List.mem_of_getElem? ht))
    have hstored := ((hatomic.both flow u.uuid hcreated).mp List.mem_cons_self).2
    have hnone : s.store.users.get? u.uuid = none := (hi.enrolling (List.mem_of_getElem? ht)).2.2.2
    change (s.store.users.get? u.uuid).isSome at hstored
    rw [hnone] at hstored
    cases hstored
  · intro hc
    exact (h.next hblank hi hc hn).atomic (hr.next hn) (hi.next hissued (next_step s a))

/-- The accounts there are can log in. -/
def AllLogIn (s : State) : Prop := ∀ uid, (s.accounts uid).isSome →
  ∃ u, s.logInButtonTapped uid = .ok u

/-- An account that logs in has a readable document. -/
theorem readable_of_logIn {s : State} (hs : s.store.Coherent s.accounts) {uid : String} {u : User}
    (h : s.logInButtonTapped uid = .ok u) :
    ∃ d, s.store.users.get? uid = some d ∧ (User.fromStringAny d).isSome := by
  unfold State.logInButtonTapped signIn at h
  split_ifs at h
  · have hgrab : grabUserFromUuid s.store.users false uid = .ok u := h
    obtain ⟨d, hd, hu⟩ := grabUser_ok hgrab
    rw [if_neg Bool.false_ne_true, hs.usersWhere_uuid, Option.some.injEq] at hd
    cases hget : s.store.users.get? uid with
    | none =>
      rw [hget] at hd
      cases hd
    | some d' =>
      rw [hget] at hd
      cases hd
      exact ⟨d, rfl, by rw [hu]; rfl⟩
  · cases h

theorem Start.served {s : State} (hs : Start s) (hlogIn : AllLogIn s) : Served s where
  accounts uid ha := by
    obtain ⟨u, hu⟩ := hlogIn uid ha
    obtain ⟨d, hd, -⟩ := readable_of_logIn hs.coherent hu
    exact Or.inl (by rw [hd]; rfl)
  stored flow uid hd := by
    rw [hs.log] at hd
    cases hd
  readable k d hd := by
    obtain ⟨v, -, rfl, hknown⟩ := hs.coherent k d hd
    obtain ⟨u, hu⟩ := hlogIn v.uuid (by rw [hknown]; rfl)
    obtain ⟨d', hd', hreadable⟩ := readable_of_logIn hs.coherent hu
    rw [hd] at hd'
    rwa [Option.some.inj hd']

theorem Start.signUpsLogged {s : State} (hs : Start s) : SignUpsLogged s := by
  constructor <;> simp [hs.tasks, hs.log]

/-- In every run of sign-ups the two stores agree in every state exactly if no `setData` of a
sign-up's document is rejected. -/
theorem atomic_iff_steps (hblank : ((UIKit.jpegData UIKit.blank).bind UIKit.ofData).isSome)
    {s : State} (hs : Start s) (hlogIn : AllLogIn s) {as : List Action}
    (has : ∀ a ∈ as, a.SignsUp) :
    Runs.Always step Atomic s as ↔ Runs.Each step Acknowledged s as :=
  Runs.always_iff_each_on (D := Action.SignsUp)
    (I := fun s => Served s ∧ SignUpsLogged s ∧ Identified s ∧ AllIssued s)
    (fun s h => h.1.atomic h.2.1 h.2.2.1)
    (fun s a h ha => atomic_step_iff hblank h.1 h.2.1 h.2.2.1 h.2.2.2 ha)
    (fun s a h ha hc => by
      have hn := signUpStep h.2.1.tasks ha
      have hn' := next_step s a
      exact ⟨h.1.next hblank h.2.2.1 hc hn, h.2.1.next hn, h.2.2.1.next h.2.2.2 hn',
        h.2.2.2.next hn'⟩)
    ⟨hs.served hlogIn, hs.signUpsLogged, hs.identified, hs.allIssued⟩ has

end

open PlainKit

/-! ### An account without a document -/

/-- Ann signs up; `failed` says that the `setData` of her document is rejected. -/
def annSignsUp (failed : Bool) : List Action := List.flatten [
  [.signUp 0 "ann"], advances 0 2, [.createUser 0 "a", .advance 0 failed]]

theorem annSignsUp_halfCreated :
    ¬ Runs.Always step Atomic (signedUp []) (annSignsUp true) := by
  intro h
  have hend : Atomic (Runs.run step (signedUp []) (annSignsUp true)) := h.last
  have hended : (Runs.run step (signedUp []) (annSignsUp true)).tasks = [] :=
    List.isEmpty_iff.mp (by decide +kernel)
  have hlost : ((Runs.run step (signedUp []) (annSignsUp true)).logInButtonTapped "a").toBool =
      false := by decide +kernel
  obtain ⟨u, hu, -⟩ := hend.logIn "a" (by decide +kernel) fun ⟨flow, u, ht, _⟩ => by
    rw [hended] at ht
    cases ht
  rw [hu] at hlost
  cases hlost

theorem atomic_iff_steps_annSignsUp :
    (Runs.run step (signedUp []) (annSignsUp false)).store.username "a" = some "ann" ∧
      Runs.Always step Atomic (signedUp []) (annSignsUp false) := by
  have hlogIn : AllLogIn (signedUp []) := nofun
  have hsignUps : ∀ a ∈ annSignsUp false, a.SignsUp := by
    simp [annSignsUp, advances, Action.SignsUp]
  have hstored : Runs.Each step Acknowledged (signedUp []) (annSignsUp false) :=
    ⟨nofun, nofun, nofun, nofun, nofun, trivial⟩
  exact ⟨by decide +kernel,
    (atomic_iff_steps rfl (initial_signedUp _).start hlogIn hsignUps).mpr hstored⟩

end JamSession.Interleaved
