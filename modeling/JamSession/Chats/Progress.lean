import Mathlib.Algebra.GroupWithZero.Nat
import Mathlib.Algebra.Order.BigOperators.Group.List
import JamSession.Chats.References

/-! Loading a chat comes to an end. `loadChat` and `createNewChat` call each other, but a screen
creates one chat at most for each time it is asked to load: the query after an acknowledged
`addDocument` finds the new chat. So the outstanding tasks need a bounded number of further steps,
and a screen that loads its chat gets its reference if the backend fails none of its steps. -/

namespace JamSession.Chats

section

variable [UIKit]

def Task.isAdding : Task → Bool
  | .adding _ _ _ => true
  | _ => false

/-- The action takes an outstanding task; an `addDocument` that is stored takes a new id. -/
def Outstanding (s : State) : Action → Prop
  | .advance i _ => i < s.tasks.length
  | .addDocument i id => s.tasks[i]?.any Task.isAdding = true ∧ s.chats.get? id = none
  | _ => False

instance (s : State) : ∀ a, Decidable (Outstanding s a)
  | .advance i _ => inferInstanceAs (Decidable (i < s.tasks.length))
  | .addDocument i id => inferInstanceAs
      (Decidable (s.tasks[i]?.any Task.isAdding = true ∧ s.chats.get? id = none))
  | .loadChat _ | .createNewChatWith _ _ => isFalse id

/-- What `loadChat` would find now. -/
def found (s : State) (v : ℕ) : Option String :=
  chatWith (s.screens v).targetUser (chatsOf s (s.screens v).currentUser)

/-- The steps that a task may lead to, its own included. -/
def Task.ahead (s : State) : Task → ℕ
  | .asked v => if (found s v).isSome then 2 else 6
  | .answered _ none => 1
  | .answered v (some documents) =>
    if (chatWith (s.screens v).targetUser documents).isSome then 1 else 5
  | .adding _ _ _ => 4
  | .added _ _ => 3

def State.ahead (s : State) : ℕ := (s.tasks.map (Task.ahead s)).sum

/-- A screen adds a chat of its two users, and finds one once that is stored. -/
def TaskAwaits (s : State) : Task → Prop
  | .adding (some v) _ data => ∃ target, (s.screens v).targetUser = some target ∧
      data = chatData [(s.screens v).currentUser, target]
  | .added (some v) false => (found s v).isSome
  | _ => True

def Awaits (s : State) : Prop := ∀ t ∈ s.tasks, TaskAwaits s t

/-! ### The chat to be found -/

section Found

variable {s s' : State} {v : ℕ}

theorem isSome_chatWith {target : Option String} {documents : List (String × Dict)} :
    (chatWith target documents).isSome ↔
      ∃ e ∈ documents, ∃ t, target = some t ∧ HasUser e.2 t := by
  cases target with
  | none => simp [chatWith]
  | some t =>
    simp only [chatWith, Option.isSome_map, List.find?_isSome, any_chatUsers, Option.some.injEq,
      exists_eq_left']

theorem isSome_found : (found s v).isSome ↔ ∃ id d, s.chats.get? id = some d ∧
    arrayContains (s.screens v).currentUser d ∧
      ∃ t, (s.screens v).targetUser = some t ∧ HasUser d t := by
  rw [found, isSome_chatWith]
  constructor
  · rintro ⟨⟨id, d⟩, he, ht⟩
    obtain ⟨hd, hcur⟩ := s.chats.mem_select.mp he
    exact ⟨id, d, hd, hcur, ht⟩
  · rintro ⟨id, d, hd, hcur, ht⟩
    exact ⟨(id, d), s.chats.mem_select.mpr ⟨hd, hcur⟩, ht⟩

/-- A chat that can be found stays so. -/
theorem Extends.found (h : Extends s s') (hf : (found s v).isSome) : (Chats.found s' v).isSome := by
  obtain ⟨id, d, hd, hcur, t, ht, hhas⟩ := isSome_found.mp hf
  refine isSome_found.mpr ⟨id, d, h.chats id d hd, ?_, t, (h.targetUser v).trans ht, hhas⟩
  rwa [h.currentUser v]

theorem TaskAwaits.extends (h : Extends s s') {t : Task} (ht : TaskAwaits s t) :
    TaskAwaits s' t := by
  match t, ht with
  | .adding (some v) answer data, ht =>
    obtain ⟨target, htarget, hdata⟩ := ht
    exact ⟨target, (h.targetUser v).trans htarget, by rw [hdata, h.currentUser v]⟩
  | .added (some v) false, ht => exact h.found ht
  | .adding none answer data, _ => trivial
  | .added none err, _ => trivial
  | .added (some v) true, _ => trivial
  | .asked v, _ => trivial
  | .answered v documents, _ => trivial

theorem ahead_extends (h : Extends s s') (t : Task) : t.ahead s' ≤ t.ahead s := by
  match t with
  | .asked v =>
    simp only [Task.ahead]
    split_ifs with hnew hold hold
    · omega
    · omega
    · exact absurd (h.found hold) hnew
    · omega
  | .answered v (some documents) => simp only [Task.ahead, h.targetUser v, le_refl]
  | .answered v none => exact le_rfl
  | .adding v answer data => exact le_rfl
  | .added v err => exact le_rfl

end Found

/-! ### One step -/

section Steps

variable {s s' : State}

theorem perm_drop {i : ℕ} {t : Task} (ht : s.tasks[i]? = some t) :
    s.tasks.Perm (t :: (s.drop i).tasks) := by
  obtain ⟨hi, rfl⟩ := List.getElem?_eq_some_iff.mp ht
  exact (List.getElem_cons_eraseIdx_perm hi).symm

/-- The tasks that a task gives way to, which have together fewer steps ahead. -/
structure GivesWay (s : State) (t : Task) (s' : State) (ts : List Task) : Prop where
  tasks : s'.tasks = s.tasks ++ ts
  awaits : ∀ u ∈ ts, TaskAwaits s' u
  ahead : (ts.map (Task.ahead s')).sum < t.ahead s

theorem ahead_bounds (s : State) (t : Task) : 0 < t.ahead s ∧ t.ahead s ≤ 6 := by
  match t with
  | .asked v =>
    simp only [Task.ahead]
    split_ifs <;> omega
  | .answered v none =>
    simp only [Task.ahead]
    omega
  | .answered v (some documents) =>
    simp only [Task.ahead]
    split_ifs <;> omega
  | .adding v answer data =>
    simp only [Task.ahead]
    omega
  | .added v err =>
    simp only [Task.ahead]
    omega

theorem GivesWay.nothing {t : Task} (htasks : s'.tasks = s.tasks) : GivesWay s t s' [] :=
  ⟨by rw [htasks, List.append_nil], fun u hu => absurd hu List.not_mem_nil, (ahead_bounds s t).1⟩

theorem GivesWay.one {t u : Task} (hu : TaskAwaits (s.add u) u)
    (hlt : u.ahead (s.add u) < t.ahead s) : GivesWay s t (s.add u) [u] :=
  ⟨rfl, List.forall_mem_singleton.mpr hu, by simpa using hlt⟩

theorem givesWay_createNewChat {v : ℕ} {documents : List (String × Dict)}
    (hnone : ¬ (chatWith (s.screens v).targetUser documents).isSome) :
    ∃ ts, GivesWay s (.answered v (some documents)) (createNewChat s v documents) ts := by
  unfold createNewChat
  split
  · exact ⟨[], .nothing rfl⟩
  · next target ht =>
    refine ⟨_, .one ⟨target, ht, rfl⟩ ?_⟩
    simp only [Task.ahead, if_neg hnone]
    omega

theorem givesWay_proceed {t : Task} (ht : TaskAwaits s t) (err : Bool) :
    ∃ ts, GivesWay s t (proceed s err t) ts := by
  match t, err with
  | .asked v, true =>
    refine ⟨_, .one trivial ?_⟩
    simp only [Task.ahead, if_true]
    split_ifs <;> omega
  | .asked v, false =>
    refine ⟨_, .one trivial ?_⟩
    show (if (found s v).isSome then 1 else 5) < if (found s v).isSome then 2 else 6
    split_ifs <;> omega
  | .answered v none, _ => exact ⟨[], .nothing rfl⟩
  | .answered v (some documents), _ =>
    simp only [proceed, loadChatAnswered]
    split_ifs with hlen
    · refine givesWay_createNewChat ?_
      rw [List.length_eq_zero_iff.mp hlen]
      simp [chatWith]
    · cases hfind : chatWith (s.screens v).targetUser documents with
      | some id => exact ⟨[], .nothing rfl⟩
      | none => exact givesWay_createNewChat (by simp [hfind])
  | .adding v answer data, _ => exact ⟨_, .one (by cases v <;> trivial) (Nat.lt_succ_self 3)⟩
  | .added (some v) false, _ =>
    simp only [proceed, loadChat]
    split_ifs
    · refine ⟨_, .one trivial ?_⟩
      have hfound : (found (s.add (.asked v)) v).isSome := ht
      simp only [Task.ahead, if_pos hfound]
      omega
    · exact ⟨[], .nothing rfl⟩
  | .added (some v) true, _ => exact ⟨[], .nothing rfl⟩
  | .added none _, _ => exact ⟨[], .nothing rfl⟩

theorem outstanding_addDocument {i : ℕ} {id : String} : Outstanding s (.addDocument i id) ↔
    ∃ v answer data, s.tasks[i]? = some (.adding v answer data) ∧ s.chats.get? id = none := by
  rw [Outstanding, Option.any_eq_true]
  constructor
  · rintro ⟨⟨t, ht, hadding⟩, hid⟩
    cases t with
    | adding v answer data => exact ⟨v, answer, data, ht, hid⟩
    | _ => cases hadding
  · rintro ⟨v, answer, data, ht, hid⟩
    exact ⟨⟨_, ht, rfl⟩, hid⟩

/-- An outstanding task that takes a step. -/
theorem step_outstanding {a : Action} (h : Awaits s) (ha : Outstanding s a) :
    ∃ i t ts, s.tasks[i]? = some t ∧ GivesWay (s.drop i) t (step s a) ts := by
  cases a with
  | advance i err =>
    have ht : s.tasks[i]? = some s.tasks[i] := List.getElem?_eq_getElem ha
    obtain ⟨ts, hts⟩ := givesWay_proceed (s := s.drop i) (h _ (List.mem_of_getElem? ht)) err
    refine ⟨i, _, ts, ht, ?_⟩
    simp only [step, ht]
    exact hts
  | addDocument i id =>
    obtain ⟨v, answer, data, ht, hid⟩ := outstanding_addDocument.mp ha
    refine ⟨i, _, [.added v false], ht, ?_⟩
    simp only [step, ht, hid]
    refine ⟨rfl, List.forall_mem_singleton.mpr ?_, Nat.lt_succ_self 3⟩
    cases v with
    | none => trivial
    | some v =>
      obtain ⟨target, htarget, rfl⟩ := h _ (List.mem_of_getElem? ht)
      refine isSome_found.mpr ⟨id, _, OrderedMap.get?_set_self _ _ _, ?_, target, htarget,
        ⟨_, chatUsers_chatData _, by simp⟩⟩
      exact (arrayContains_chatData _ _).mpr List.mem_cons_self
  | loadChat v => exact ha.elim
  | createNewChatWith currentUser user => exact ha.elim

/-- Any other step adds a query or a chat of `createNewChatWith`, or does nothing. -/
theorem step_idle {a : Action} (ha : ¬ Outstanding s a) : step s a = s ∨
    ∃ t, step s a = s.add t ∧ ((∃ v, t = .asked v) ∨ ∃ data, t = .adding none [] data) := by
  cases a with
  | loadChat v =>
    simp only [step, loadChat]
    split_ifs
    · exact Or.inr ⟨_, rfl, Or.inl ⟨v, rfl⟩⟩
    · exact Or.inl rfl
  | createNewChatWith currentUser user => exact Or.inr ⟨_, rfl, Or.inr ⟨_, rfl⟩⟩
  | advance i err =>
    left
    simp only [step, List.getElem?_eq_none (not_lt.mp ha)]
  | addDocument i id =>
    obtain ⟨v, answer, data, hi, hid⟩ | ⟨hstep, -⟩ := addDocument_cases s i id
    · exact absurd (outstanding_addDocument.mpr ⟨v, answer, data, hi, hid⟩) ha
    · exact Or.inl hstep

theorem Awaits.step (h : Awaits s) (a : Action) : Awaits (step s a) := by
  have hext := step_extends s a
  by_cases ha : Outstanding s a
  · intro u hu
    obtain ⟨i, t, ts, -, htasks, hts, -⟩ := step_outstanding h ha
    rw [htasks] at hu
    rcases List.mem_append.mp hu with hu | hu
    · exact (h u (List.mem_of_mem_eraseIdx hu)).extends hext
    · exact hts u hu
  · rcases step_idle ha with hs | ⟨t, hs, hnew⟩
    · rwa [hs]
    · rw [hs] at hext ⊢
      intro u hu
      rcases List.mem_append.mp hu with hu | hu
      · exact (h u hu).extends hext
      · rw [List.mem_singleton.mp hu]
        obtain ⟨v, rfl⟩ | ⟨data, rfl⟩ := hnew <;> trivial

/-- Whatever outstanding task goes on, fewer steps are ahead. -/
theorem ahead_step {a : Action} (h : Awaits s) (ha : Outstanding s a) :
    (step s a).ahead < s.ahead := by
  obtain ⟨i, t, ts, ht, htasks, -, hlt⟩ := step_outstanding h ha
  have hsum : s.ahead = t.ahead s + ((s.drop i).tasks.map (Task.ahead s)).sum :=
    ((perm_drop ht).map (Task.ahead s)).sum_eq
  have hold : ((s.drop i).tasks.map (Task.ahead (step s a))).sum ≤
      ((s.drop i).tasks.map (Task.ahead s)).sum :=
    List.sum_le_sum fun u _ => ahead_extends (step_extends s a) u
  have hnew : (ts.map (Task.ahead (step s a))).sum < t.ahead s := hlt
  rw [hsum, State.ahead, htasks, List.map_append, List.sum_append]
  omega

theorem ahead_le (s : State) : s.ahead ≤ 6 * s.tasks.length := by
  have hle : ∀ n ∈ s.tasks.map (Task.ahead s), n ≤ 6 := by
    intro n hn
    obtain ⟨t, -, rfl⟩ := List.mem_map.mp hn
    exact (ahead_bounds s t).2
  calc s.ahead ≤ (s.tasks.map (Task.ahead s)).length • 6 := List.sum_le_card_nsmul _ 6 hle
    _ = 6 * s.tasks.length := by rw [List.length_map, smul_eq_mul, mul_comm]

theorem length_add_ahead_le (h : Awaits s) {bs : List Action}
    (hbs : Runs.Each step Outstanding s bs) : bs.length + (Runs.run step s bs).ahead ≤ s.ahead := by
  induction bs generalizing s with
  | nil => simp
  | cons b bs ih =>
    have hlt := ahead_step h hbs.1
    have hrest := ih (h.step b) hbs.2
    rw [List.length_cons, Runs.run_cons]
    omega

end Steps

theorem Initial.awaits {s : State} (h : Initial s) : Awaits s := by
  intro t ht
  rw [h.tasks] at ht
  cases ht

/-- In no order can the outstanding tasks of a reachable state take more than six steps each. -/
theorem outstanding_run {s : State} (hs : Initial s) (as : List Action) {bs : List Action}
    (hbs : Runs.Each step Outstanding (Runs.run step s as) bs) :
    bs.length ≤ 6 * (Runs.run step s as).tasks.length := by
  have hawaits : Awaits (Runs.run step s as) :=
    Runs.invariant (I := Awaits) (fun _ a h => h.step a) hs.awaits as
  have hlength := length_add_ahead_le hawaits hbs
  have hle := ahead_le (Runs.run step s as)
  omega

/-! ### Screens that get their reference -/

/-- The screen that a task belongs to. -/
def Task.screen : Task → Option ℕ
  | .asked v | .answered v _ => some v
  | .adding v _ _ | .added v _ => v

/-- The task goes on, and does not fail if it is a query or an `addDocument` of the screen. -/
def Task.Succeeds (v : ℕ) (err : Bool) : Task → Prop
  | .asked w => w = v → err = false
  | .adding w _ _ => w ≠ some v
  | _ => True

/-- The step fails nothing of the screen. -/
def Succeeds (v : ℕ) (s : State) : Action → Prop
  | .advance i err => ∀ t ∈ s.tasks[i]?, t.Succeeds v err
  | _ => True

instance (v : ℕ) (err : Bool) : ∀ t : Task, Decidable (t.Succeeds v err)
  | .asked w => inferInstanceAs (Decidable (w = v → err = false))
  | .adding w _ _ => inferInstanceAs (Decidable (w ≠ some v))
  | .answered _ _ | .added _ _ => isTrue trivial

instance (v : ℕ) (s : State) : ∀ a, Decidable (Succeeds v s a)
  | .advance i err => inferInstanceAs (Decidable (∀ t ∈ s.tasks[i]?, t.Succeeds v err))
  | .loadChat _ | .createNewChatWith _ _ | .addDocument _ _ => isTrue trivial

/-- The screen refers to a stored chat of its two users. -/
def Attached (v : ℕ) (s : State) : Prop :=
  ∃ id d target, (s.screens v).docReference = some id ∧ s.chats.get? id = some d ∧
    (s.screens v).targetUser = some target ∧ HasUser d (s.screens v).currentUser ∧ HasUser d target

/-- Something of the screen is outstanding, or it has its reference. -/
def Served (v : ℕ) (s : State) : Prop := (∃ t ∈ s.tasks, t.screen = some v) ∨ Attached v s

/-- A failed query or `addDocument` of the screen. -/
def Task.Failed (v : ℕ) : Task → Prop
  | .answered w none => w = v
  | .added w true => w = some v
  | _ => False

/-- Something of the screen is outstanding that has not failed, or it has a reference. -/
def Pursued (v : ℕ) (s : State) : Prop :=
  (∃ t ∈ s.tasks, t.screen = some v ∧ ¬ t.Failed v) ∨ (s.screens v).docReference ≠ none

section Serving

variable {s : State} {v : ℕ}

theorem Pursued.served (hk : Known s) (h : Pursued v s) : Served v s := by
  refine h.imp (fun ⟨t, hmem, hv, _⟩ => ⟨t, hmem, hv⟩) fun href => ?_
  obtain ⟨id, hid⟩ := Option.ne_none_iff_exists'.mp href
  obtain ⟨d, target, hd, ht, hcur, htar⟩ := hk.screens v id hid
  exact ⟨id, d, target, hid, hd, ht, hcur, htar⟩

theorem pursued_add {t : Task} (ht : t.screen = some v) (hf : ¬ t.Failed v) : Pursued v (s.add t) :=
  Or.inl ⟨t, List.mem_append_right _ (List.mem_singleton_self t), ht, hf⟩

theorem pursued_loadChat (ht : (s.screens v).targetUser ≠ none) : Pursued v (loadChat s v) := by
  rw [loadChat, if_pos (Option.isSome_iff_ne_none.mpr ht)]
  exact pursued_add rfl id

theorem pursued_createNewChat (ht : (s.screens v).targetUser ≠ none)
    (documents : List (String × Dict)) : Pursued v (createNewChat s v documents) := by
  obtain ⟨target, htarget⟩ := Option.ne_none_iff_exists'.mp ht
  simp only [createNewChat, htarget]
  exact pursued_add rfl id

/-- A task of the screen that has not failed leaves another one, or a reference. -/
theorem pursued_proceed (ht : (s.screens v).targetUser ≠ none) {t : Task} (hv : t.screen = some v)
    (hf : ¬ t.Failed v) {err : Bool} (hsucc : t.Succeeds v err) : Pursued v (proceed s err t) := by
  cases t with
  | asked w =>
    obtain rfl : err = false := hsucc (Option.some.inj hv)
    exact pursued_add hv id
  | answered w documents =>
    obtain rfl : w = v := Option.some.inj hv
    cases documents with
    | none => exact absurd rfl hf
    | some documents =>
      simp only [proceed, loadChatAnswered]
      split_ifs
      · exact pursued_createNewChat ht documents
      · split
        · next id hid =>
          right
          simp [State.refer]
        · exact pursued_createNewChat ht documents
  | adding w answer data => exact absurd hv hsucc
  | added w failed =>
    obtain rfl : w = some v := hv
    cases failed with
    | true => exact absurd rfl hf
    | false => exact pursued_loadChat ht

/-- What is known of a screen in every state. -/
structure Targeted (v : ℕ) (s : State) : Prop where
  known : Known s
  awaits : Awaits s
  target : (s.screens v).targetUser ≠ none

theorem Targeted.step (h : Targeted v s) (a : Action) : Targeted v (step s a) := by
  refine ⟨h.known.step a, h.awaits.step a, ?_⟩
  rw [(step_extends s a).targetUser v]
  exact h.target

theorem Targeted.pursued_step (h : Targeted v s) {a : Action} (ha : Succeeds v s a)
    (hp : Pursued v s) : Pursued v (Chats.step s a) := by
  obtain ⟨t, hmem, hv⟩ | href := hp
  · by_cases hout : Outstanding s a
    · cases a with
      | loadChat w => exact hout.elim
      | createNewChatWith currentUser user => exact hout.elim
      | addDocument i id =>
        obtain ⟨w, answer, data, hi, hid⟩ | ⟨hstep, -⟩ := addDocument_cases s i id
        · simp only [Chats.step, hi, hid]
          rcases List.mem_cons.mp ((perm_drop hi).subset hmem) with rfl | hmem
          · exact pursued_add hv.1 (by simp [Task.Failed])
          · exact Or.inl ⟨t, List.mem_append_left _ hmem, hv⟩
        · rw [hstep]
          exact Or.inl ⟨t, hmem, hv⟩
      | advance i err =>
        have hi : s.tasks[i]? = some s.tasks[i] := List.getElem?_eq_getElem hout
        have hmem' := List.mem_of_getElem? hi
        simp only [Chats.step, hi]
        rcases List.mem_cons.mp ((perm_drop hi).subset hmem) with rfl | hmem
        · exact pursued_proceed (s := s.drop i) h.target hv.1 hv.2 (ha _ hi)
        · obtain ⟨ts, htasks, -⟩ := givesWay_proceed (s := s.drop i) (h.awaits _ hmem') err
          exact Or.inl ⟨t, htasks ▸ List.mem_append_left ts hmem, hv⟩
    · rcases step_idle hout with hs | ⟨u, hs, -⟩
      · rw [hs]
        exact Or.inl ⟨t, hmem, hv⟩
      · rw [hs]
        exact Or.inl ⟨t, List.mem_append_left _ hmem, hv⟩
  · exact Or.inr (referring_step href a)

/-- From each `loadChat` of a screen on, as long as the backend fails nothing of the screen, it
refers to a stored chat of its two users whenever nothing of it is outstanding. -/
theorem served_run {s : State} (hs : Initial s) (as : List Action) {v : ℕ}
    (ht : (s.screens v).targetUser ≠ none) {bs : List Action}
    (hbs : Runs.Each step (Succeeds v) (Runs.run step s (as ++ [.loadChat v])) bs) :
    Runs.Always step (Served v) (Runs.run step s (as ++ [.loadChat v])) bs := by
  have htargeted : Targeted v (Runs.run step s as) :=
    Runs.invariant (I := Targeted v) (fun _ a h => h.step a) ⟨hs.known, hs.awaits, ht⟩ as
  rw [Runs.run_append] at hbs ⊢
  have hloaded : Pursued v (step (Runs.run step s as) (.loadChat v)) :=
    pursued_loadChat htargeted.target
  exact (Runs.always_of_each (C := Succeeds v) (I := fun s => Targeted v s ∧ Pursued v s)
    (fun s a h ha => ⟨h.1.step a, h.1.pursued_step ha h.2⟩)
    ⟨htargeted.step _, hloaded⟩ hbs).mono fun s h => h.2.served h.1.known

end Serving

end

open PlainKit

/-- Two screens that both create their chat take all of their twelve steps. -/
theorem outstanding_run_bothCreate :
    Runs.Each step Outstanding (Runs.run step annAndBob (bothCreate.take 2)) (bothCreate.drop 2) ∧
      (bothCreate.drop 2).length ≤
        6 * (Runs.run step annAndBob (bothCreate.take 2)).tasks.length ∧
      (bothCreate.drop 2).length =
        6 * (Runs.run step annAndBob (bothCreate.take 2)).tasks.length :=
  ⟨by decide +kernel, outstanding_run initial_annAndBob (bothCreate.take 2) (by decide +kernel),
    by decide +kernel⟩

/-- The query of a first load fails, and the screen loads again. -/
def failedLoad : List Action := [.loadChat 0, .advance 0 true]

theorem served_run_failedLoad :
    (Runs.run step (Runs.run step annAndBob (failedLoad ++ [.loadChat 0]))
        (.advance 0 false :: bothCreate.drop 1)).tasks.length = 0 ∧
      Runs.Always step (Served 0) (Runs.run step annAndBob (failedLoad ++ [.loadChat 0]))
        (.advance 0 false :: bothCreate.drop 1) :=
  ⟨by decide +kernel, served_run initial_annAndBob failedLoad (by decide) (by decide +kernel)⟩

end JamSession.Chats
