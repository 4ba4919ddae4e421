import Mathlib.Data.Fintype.EquivFin
import JamSession.Chats.OneChat

/-! One call of `loadChat` and the calls that follow from it, among documents that other clients
add. `loadChat` asks for the chats of the current user and creates one if none has the target;
when that is stored it asks again. Nothing counts the rounds, but the second answer includes the
document that was just stored, which has both users, so the search in it finds a chat at the
latest there. Any value may stand in the documents: one that does not decode is passed over. -/

namespace JamSession.Chats.Opening

variable [UIKit]

/-- The task is a call of the backend that is under way. -/
def isCall : Task → Bool
  | .asked _ | .adding _ _ _ => true
  | _ => false

/-- The call fails if its next step has `err`. -/
def fails (err : Bool) : Task → Bool
  | .asked _ => err
  | .adding _ _ _ => true
  | _ => false

/-- The system with the tasks of the flow, and what the flow has done: the `getDocuments` and
`addDocument` it called, the documents it stored, the steps it took, and whether a call failed.
The thread listener is attached in the last step, with the reference. -/
structure Ledger where
  system : State
  calls : ℕ
  stored : ℕ
  steps : ℕ
  failed : Bool

inductive Action
  | other (id : String) (data : Dict)
  | advance (i : ℕ) (err : Bool)
  | addDocument (i : ℕ) (id : String)

/-- The flow took a step from its task `i` to the state `s`. -/
def Ledger.take (o : Ledger) (i : ℕ) (s : State) (stores : ℕ) (failed : Bool) : Ledger where
  system := s
  calls := o.calls + (s.tasks.countP isCall - (o.system.drop i).tasks.countP isCall)
  stored := o.stored + stores
  steps := o.steps + 1
  failed := o.failed || failed

/-- Other clients add any documents, under ids that no document has. -/
def step (o : Ledger) : Action → Ledger
  | .other id data => match o.system.chats.get? id with
    | none => { o with system := o.system.store id data }
    | some _ => o
  | .advance i err => match o.system.tasks[i]? with
    | some t => o.take i (Chats.step o.system (.advance i err)) 0 (fails err t)
    | none => o
  | .addDocument i id => match o.system.tasks[i]?, o.system.chats.get? id with
    | some (.adding _ _ _), none => o.take i (Chats.step o.system (.addDocument i id)) 1 false
    | _, _ => o

/-- `loadChat` was called on a screen of the two users, over any collection. -/
def start (chats : OrderedMap String Dict) (currentUser targetUser : String)
    (docReference : Option String) : Ledger :=
  let s := loadChat ⟨chats, fun _ => ⟨currentUser, some targetUser, docReference⟩, []⟩ 0
  ⟨s, s.tasks.countP isCall, 0, 0, false⟩

/-- The screen refers to a stored chat of the two users. -/
def Refers (a b : String) (s : State) : Prop :=
  ∃ id d, (s.screens 0).docReference = some id ∧ s.chats.get? id = some d ∧
    HasUser d a ∧ HasUser d b

/-- The flow makes three backend calls at most and stores one document at most; it takes six
steps at most, and while something is outstanding one that does not fail is possible; and when
nothing is outstanding and no call failed, the screen has its chat. -/
structure Opens (a b : String) (o : Ledger) : Prop where
  calls : o.calls ≤ 3
  stored : o.stored ≤ 1
  steps : o.steps ≤ 6
  goesOn : o.system.tasks ≠ [] → ∃ act, (step o act).steps = o.steps + 1 ∧
    (step o act).failed = o.failed
  ends : o.failed = false → o.system.tasks = [] → Refers a b o.system

/-! ### The answers of the query -/

theorem mem_of_mapM_asString {vs : List Value} {users : List String}
    (h : vs.mapM Value.asString = some users) {v : Value} (hv : v ∈ vs) {uuid : String}
    (hu : v.asString = some uuid) : uuid ∈ users := by
  induction vs generalizing users with
  | nil => cases hv
  | cons w ws ih =>
    simp only [List.mapM_cons, Option.bind_eq_bind, Option.bind_eq_some_iff, Option.pure_def,
      Option.some.injEq] at h
    obtain ⟨x, hx, xs, hxs, rfl⟩ := h
    rcases List.mem_cons.mp hv with rfl | hv
    · rw [hu, Option.some.injEq] at hx
      exact hx ▸ List.mem_cons_self
    · exact List.mem_cons_of_mem _ (ih hxs hv)

/-- A document of the answer that decodes has the current user. -/
theorem hasUser_of_arrayContains {uuid uuid' : String} {d : Dict}
    (h : arrayContains uuid d = true) (hd : HasUser d uuid') : HasUser d uuid := by
  obtain ⟨users, husers, -⟩ := hd
  refine ⟨users, husers, ?_⟩
  unfold arrayContains at h
  rw [chatUsers, Dict.strings] at husers
  split at h
  · rename_i vs hvs
    rw [hvs] at husers
    obtain ⟨v, hv, hmem⟩ := List.any_eq_true.mp h
    exact mem_of_mapM_asString husers hv (of_decide_eq_true hmem)
  · cases h

/-- The search finds a chat of the target user, or there is none. -/
theorem chatWith_cases (b : String) (documents : List (String × Dict)) :
    (∃ id d, (id, d) ∈ documents ∧ HasUser d b ∧ chatWith (some b) documents = some id) ∨
    (∀ e ∈ documents, ¬ HasUser e.2 b) ∧ chatWith (some b) documents = none := by
  unfold chatWith
  cases hfind : documents.find? fun e => (some b).any fun t =>
      (chatUsers e.2).any fun users => t ∈ users with
  | some e =>
    have hfound := List.find?_some hfind
    exact Or.inl ⟨e.1, e.2, List.mem_of_find?_eq_some hfind, any_chatUsers.mp hfound, rfl⟩
  | none =>
    refine Or.inr ⟨fun e he hhas => ?_, rfl⟩
    exact List.find?_eq_none.mp hfind e he (any_chatUsers.mpr hhas)

/-- Handling an answer sets the reference or creates a chat. -/
theorem loadChatAnswered_cases {s : State} {a b : String} (ha : (s.screens 0).currentUser = a)
    (hb : (s.screens 0).targetUser = some b) (documents : List (String × Dict)) :
    (∃ id d, (id, d) ∈ documents ∧ HasUser d b ∧
      loadChatAnswered s 0 (some documents) = s.refer 0 id) ∨
    (∀ e ∈ documents, ¬ HasUser e.2 b) ∧
      loadChatAnswered s 0 (some documents) =
        s.add (.adding (some 0) documents (chatData [a, b])) := by
  have hcreate : createNewChat s 0 documents =
      s.add (.adding (some 0) documents (chatData [a, b])) := by
    simp only [createNewChat, hb, ha]
  simp only [loadChatAnswered, hb, hcreate]
  rcases chatWith_cases b documents with ⟨id, d, hmem, hhas, hfind⟩ | ⟨hnone, hfind⟩
  · have hlen : documents.length ≠ 0 := Nat.ne_of_gt (List.length_pos_of_mem hmem)
    refine Or.inl ⟨id, d, hmem, hhas, ?_⟩
    rw [if_neg hlen, hfind]
  · refine Or.inr ⟨hnone, ?_⟩
    rw [hfind]
    exact ite_self _

/-! ### The stages of the flow -/

/-- The flow has stored its chat. -/
def Owns (a b : String) (s : State) : Prop := ∃ id, s.chats.get? id = some (chatData [a, b])

/-- An answer of the round `k`: documents of the current user, and in the second round one of
them is the flow's own. -/
def AnswerOf (k : ℕ) (a b : String) (s : State) (documents : List (String × Dict)) : Prop :=
  (∀ e ∈ documents, s.chats.get? e.1 = some e.2 ∧ arrayContains a e.2 = true) ∧
    (k = 1 → ∃ id, (id, chatData [a, b]) ∈ documents)

/-- Where the flow stands. Round `k` begins with `k` documents stored. -/
inductive Stage (a b : String) (o : Ledger) : Prop
  | asked (k : ℕ) (hk : k ≤ 1) (ht : o.system.tasks = [.asked 0])
      (hn : o.calls = 2 * k + 1 ∧ o.stored = k ∧ o.steps = 4 * k)
      (hown : k = 1 → Owns a b o.system)
  | answered (k : ℕ) (hk : k ≤ 1) (answer : Option (List (String × Dict)))
      (ht : o.system.tasks = [.answered 0 answer])
      (hn : o.calls = 2 * k + 1 ∧ o.stored = k ∧ o.steps = 4 * k + 1)
      (hanswer : ∀ documents, answer = some documents → AnswerOf k a b o.system documents)
      (hfailed : answer = none → o.failed = true)
  | adding (answer : List (String × Dict))
      (ht : o.system.tasks = [.adding (some 0) answer (chatData [a, b])])
      (hn : o.calls = 2 ∧ o.stored = 0 ∧ o.steps = 2)
  | added (err : Bool) (ht : o.system.tasks = [.added (some 0) err])
      (hn : o.calls = 2 ∧ o.stored ≤ 1 ∧ o.steps = 3)
      (hown : err = false → Owns a b o.system ∧ o.stored = 1) (hfailed : err = true → o.failed = true)
  | ended (ht : o.system.tasks = []) (hn : o.calls ≤ 3 ∧ o.stored ≤ 1 ∧ o.steps ≤ 6)
      (href : o.failed = false → Refers a b o.system)

/-- The flow of a screen of the two users. -/
structure OnCourse (a b : String) (o : Ledger) : Prop where
  currentUser : (o.system.screens 0).currentUser = a
  targetUser : (o.system.screens 0).targetUser = some b
  stage : Stage a b o

/-- Some id is not in use. -/
theorem exists_fresh (chats : OrderedMap String Dict) : ∃ id, chats.get? id = none := by
  obtain ⟨id, hid⟩ := Infinite.exists_notMem_finset (chats.entries.map Prod.fst).toFinset
  refine ⟨id, chats.get?_eq_none_iff.mpr fun d hd => hid ?_⟩
  exact List.mem_toFinset.mpr (List.mem_map.mpr ⟨(id, d), hd, rfl⟩)

section Steps

variable {a b : String} {o : Ledger}

theorem onCourse_start (chats : OrderedMap String Dict) (a b : String)
    (docReference : Option String) : OnCourse a b (start chats a b docReference) :=
  ⟨rfl, rfl, .asked 0 (Nat.zero_le 1) rfl ⟨rfl, rfl, rfl⟩ (by simp)⟩

/-- More documents take nothing from what the flow knows. -/
theorem Stage.other (h : Stage a b o) {id : String} (hid : o.system.chats.get? id = none)
    (data : Dict) : Stage a b { o with system := o.system.store id data } := by
  have hext : Extends o.system (o.system.store id data) := extends_store hid data
  have howns : Owns a b o.system → Owns a b (o.system.store id data) :=
    fun ⟨id', hown⟩ => ⟨id', hext.chats _ _ hown⟩
  cases h with
  | asked k hk ht hn hown => exact .asked k hk ht hn fun hk' => howns (hown hk')
  | answered k hk answer ht hn hanswer hfailed =>
    refine .answered k hk answer ht hn (fun documents hd => ?_) hfailed
    obtain ⟨hstored, hfound⟩ := hanswer documents hd
    exact ⟨fun e he => ⟨hext.chats _ _ (hstored e he).1, (hstored e he).2⟩, hfound⟩
  | adding answer ht hn => exact .adding answer ht hn
  | added err ht hn hown hfailed =>
    exact .added err ht hn (fun he => ⟨howns (hown he).1, (hown he).2⟩) hfailed
  | ended ht hn href =>
    refine .ended ht hn fun hf => ?_
    obtain ⟨id', d, hid', hd, hhas⟩ := href hf
    exact ⟨id', d, hid', hext.chats _ _ hd, hhas⟩

/-! ### One step -/

section Single

variable {t : Task} (ht : o.system.tasks = [t])
include ht

theorem tasks_drop : (o.system.drop 0).tasks = [] := by
  rw [State.drop, ht]
  rfl

/-- The only task goes on, or the index is not its own. -/
theorem step_advance (i : ℕ) (err : Bool) : step o (.advance i err) = o ∨
    step o (.advance i err) = o.take 0 (proceed (o.system.drop 0) err t) 0 (fails err t) := by
  cases i with
  | zero =>
    refine Or.inr ?_
    have h0 : o.system.tasks[0]? = some t := by rw [ht]; rfl
    simp only [step, Chats.step, h0]
  | succ i =>
    refine Or.inl ?_
    have hi : o.system.tasks[i + 1]? = none := by rw [ht]; rfl
    simp only [step, hi]

theorem step_addDocument (i : ℕ) (id : String) : step o (.addDocument i id) = o ∨
    ∃ v answer data, t = .adding v answer data ∧ o.system.chats.get? id = none ∧
      step o (.addDocument i id) =
        o.take 0 (((o.system.drop 0).store id data).add (.added v false)) 1 false := by
  simp only [step]
  split
  · rename_i v answer data hi hid
    obtain ⟨hlt, htask⟩ := List.getElem?_eq_some_iff.mp hi
    have hi0 : i = 0 := by simpa [ht] using hlt
    subst hi0
    have h0 : o.system.tasks[0]? = some t := by rw [ht]; rfl
    rw [h0, Option.some.injEq] at hi
    refine Or.inr ⟨v, answer, data, hi, hid, ?_⟩
    simp only [Chats.step, h0, hi, hid]
  · exact Or.inl rfl

/-- The new state has at most one task, and the calls are counted. -/
theorem take_add (s : State) (hs : s.tasks = []) (u : Task) (n : ℕ) (f : Bool) :
    (o.take 0 (s.add u) n f).system.tasks = [u] ∧
      (o.take 0 (s.add u) n f).calls = o.calls + if isCall u then 1 else 0 := by
  have hadd : (s.add u).tasks = [u] := by rw [State.add, hs]; rfl
  refine ⟨hadd, ?_⟩
  rw [Ledger.take, tasks_drop ht, hadd]
  cases hu : isCall u <;> simp [hu]

theorem take_nil (s : State) (hs : s.tasks = []) (n : ℕ) (f : Bool) :
    (o.take 0 s n f).calls = o.calls := by
  rw [Ledger.take, tasks_drop ht, hs]
  rfl

end Single

namespace OnCourse

/-- The query of a round is answered, or fails. -/
theorem asked (h : OnCourse a b o) {k : ℕ} (hk : k ≤ 1) (ht : o.system.tasks = [.asked 0])
    (hn : o.calls = 2 * k + 1 ∧ o.stored = k ∧ o.steps = 4 * k)
    (hown : k = 1 → Owns a b o.system) (err : Bool) :
    OnCourse a b (o.take 0 (proceed (o.system.drop 0) err (.asked 0)) 0 err) := by
  have hdrop := tasks_drop ht
  simp only [proceed]
  obtain ⟨htasks, hcalls⟩ := take_add ht (o.system.drop 0) hdrop (.answered 0 (if err then none
    else some ((o.system.drop 0).chats.select fun _ d =>
      arrayContains ((o.system.drop 0).screens 0).currentUser d))) 0 err
  refine ⟨h.currentUser, h.targetUser, .answered k hk _ htasks ⟨?_, hn.2.1, ?_⟩ ?_ ?_⟩
  · rw [hcalls, hn.1]
    rfl
  · rw [Ledger.take, hn.2.2]
  · intro documents hd
    cases err with
    | true => cases hd
    | false =>
      rw [if_neg Bool.false_ne_true, Option.some.injEq] at hd
      subst hd
      have hcur : ((o.system.drop 0).screens 0).currentUser = a := h.currentUser
      simp only [hcur]
      refine ⟨fun e he => o.system.chats.mem_select.mp he, fun hk' => ?_⟩
      obtain ⟨id, hid⟩ := hown hk'
      exact ⟨id, o.system.chats.mem_select.mpr ⟨hid, by simp⟩⟩
  · intro hnone
    cases err with
    | true => exact Bool.or_true _
    | false => simp at hnone

/-- The answer of a round is handled. In the second round it has the flow's own chat. -/
theorem answered (h : OnCourse a b o) {k : ℕ} (hk : k ≤ 1)
    {answer : Option (List (String × Dict))} (ht : o.system.tasks = [.answered 0 answer])
    (hn : o.calls = 2 * k + 1 ∧ o.stored = k ∧ o.steps = 4 * k + 1)
    (hanswer : ∀ documents, answer = some documents → AnswerOf k a b o.system documents)
    (hfailed : answer = none → o.failed = true) (err : Bool) :
    OnCourse a b (o.take 0 (proceed (o.system.drop 0) err (.answered 0 answer)) 0 false) := by
  have hdrop := tasks_drop ht
  simp only [proceed]
  cases answer with
  | none =>
    refine ⟨h.currentUser, h.targetUser, .ended hdrop ⟨?_, ?_, ?_⟩ ?_⟩
    · rw [loadChatAnswered, take_nil ht _ hdrop]
      omega
    · show o.stored + 0 ≤ 1
      omega
    · show o.steps + 1 ≤ 6
      omega
    · intro hf
      rw [loadChatAnswered, Ledger.take, hfailed rfl] at hf
      cases hf
  | some documents =>
    obtain ⟨hstored, hfound⟩ := hanswer documents rfl
    rcases loadChatAnswered_cases (s := o.system.drop 0) h.currentUser h.targetUser documents with
      ⟨id, d, hmem, hhas, heq⟩ | ⟨hnone, heq⟩
    · rw [heq]
      have htasks : ((o.system.drop 0).refer 0 id).tasks = [] := hdrop
      have hext := extends_refer (o.system.drop 0) 0 id
      refine ⟨(hext.currentUser 0).trans h.currentUser, (hext.targetUser 0).trans h.targetUser,
        .ended htasks ⟨?_, ?_, ?_⟩ fun _ => ?_⟩
      · rw [take_nil ht _ htasks]
        omega
      · show o.stored + 0 ≤ 1
        omega
      · show o.steps + 1 ≤ 6
        omega
      · obtain ⟨hd, hcontains⟩ := hstored _ hmem
        refine ⟨id, d, ?_, hd, hasUser_of_arrayContains hcontains hhas, hhas⟩
        simp [Ledger.take, State.refer]
    · have hk0 : k = 0 := by
        by_contra hk'
        obtain ⟨id, hid⟩ := hfound (by omega)
        exact hnone _ hid ⟨[a, b], chatUsers_chatData _, by simp⟩
      subst hk0
      rw [heq]
      obtain ⟨htasks, hcalls⟩ := take_add ht (o.system.drop 0) hdrop
        (.adding (some 0) documents (chatData [a, b])) 0 false
      refine ⟨h.currentUser, h.targetUser, .adding documents htasks ⟨?_, hn.2.1, ?_⟩⟩
      · rw [hcalls, hn.1]
        rfl
      · rw [Ledger.take, hn.2.2]

/-- The `addDocument` fails. -/
theorem addFailed (h : OnCourse a b o) {answer : List (String × Dict)}
    (ht : o.system.tasks = [.adding (some 0) answer (chatData [a, b])])
    (hn : o.calls = 2 ∧ o.stored = 0 ∧ o.steps = 2) (err : Bool) :
    OnCourse a b (o.take 0
      (proceed (o.system.drop 0) err (.adding (some 0) answer (chatData [a, b]))) 0 true) := by
  simp only [proceed]
  obtain ⟨htasks, hcalls⟩ := take_add ht (o.system.drop 0) (tasks_drop ht) (.added (some 0) true)
    0 true
  refine ⟨h.currentUser, h.targetUser, .added true htasks ⟨?_, ?_, ?_⟩
    (fun hstored => absurd hstored (by decide)) fun _ => Bool.or_true _⟩
  · rw [hcalls, hn.1]
    rfl
  · show o.stored + 0 ≤ 1
    omega
  · rw [Ledger.take, hn.2.2]

/-- The chat is stored. -/
theorem addStored (h : OnCourse a b o) {answer : List (String × Dict)}
    (ht : o.system.tasks = [.adding (some 0) answer (chatData [a, b])])
    (hn : o.calls = 2 ∧ o.stored = 0 ∧ o.steps = 2) (id : String) :
    OnCourse a b (o.take 0
      (((o.system.drop 0).store id (chatData [a, b])).add (.added (some 0) false)) 1 false) := by
  obtain ⟨htasks, hcalls⟩ := take_add ht ((o.system.drop 0).store id (chatData [a, b]))
    (tasks_drop ht) (.added (some 0) false) 1 false
  refine ⟨h.currentUser, h.targetUser,
    .added false htasks ⟨?_, ?_, ?_⟩ (fun _ => ⟨⟨id, ?_⟩, ?_⟩) nofun⟩
  · rw [hcalls, hn.1]
    rfl
  · show o.stored + 1 ≤ 1
    omega
  · rw [Ledger.take, hn.2.2]
  · exact OrderedMap.get?_set_self _ _ _
  · rw [Ledger.take, hn.2.1]

/-- The acknowledgement starts the second round. -/
theorem added (h : OnCourse a b o) {err : Bool} (ht : o.system.tasks = [.added (some 0) err])
    (hn : o.calls = 2 ∧ o.stored ≤ 1 ∧ o.steps = 3)
    (hown : err = false → Owns a b o.system ∧ o.stored = 1)
    (hfailed : err = true → o.failed = true) (err' : Bool) :
    OnCourse a b (o.take 0 (proceed (o.system.drop 0) err' (.added (some 0) err)) 0 false) := by
  have hdrop := tasks_drop ht
  cases err with
  | true =>
    refine ⟨h.currentUser, h.targetUser, .ended hdrop ⟨?_, ?_, ?_⟩ ?_⟩
    · rw [proceed, take_nil ht _ hdrop]
      · omega
      · simp
    · show o.stored + 0 ≤ 1
      omega
    · show o.steps + 1 ≤ 6
      omega
    · intro hf
      rw [Ledger.take, hfailed rfl] at hf
      cases hf
  | false =>
    have hload : loadChat (o.system.drop 0) 0 = (o.system.drop 0).add (.asked 0) := by
      have hsome : ((o.system.drop 0).screens 0).targetUser = some b := h.targetUser
      rw [loadChat, hsome]
      rfl
    simp only [proceed, hload]
    obtain ⟨htasks, hcalls⟩ := take_add ht (o.system.drop 0) hdrop (.asked 0) 0 false
    obtain ⟨howns, hstored⟩ := hown rfl
    refine ⟨h.currentUser, h.targetUser,
      .asked 1 (Nat.le_refl 1) htasks ⟨?_, hstored, ?_⟩ fun _ => howns⟩
    · rw [hcalls, hn.1]
      rfl
    · rw [Ledger.take, hn.2.2]

theorem advance (h : OnCourse a b o) (i : ℕ) (err : Bool) :
    OnCourse a b (step o (.advance i err)) := by
  cases h.stage with
  | asked k hk ht hn hown =>
    rcases step_advance ht i err with heq | heq
    · rwa [heq]
    · rw [heq]
      exact h.asked hk ht hn hown err
  | answered k hk answer ht hn hanswer hfailed =>
    rcases step_advance ht i err with heq | heq
    · rwa [heq]
    · rw [heq]
      exact h.answered hk ht hn hanswer hfailed err
  | adding answer ht hn =>
    rcases step_advance ht i err with heq | heq
    · rwa [heq]
    · rw [heq]
      exact h.addFailed ht hn err
  | added err' ht hn hown hfailed =>
    rcases step_advance ht i err with heq | heq
    · rwa [heq]
    · rw [heq]
      exact h.added ht hn hown hfailed err
  | ended ht hn href =>
    have hnone : o.system.tasks[i]? = none := by rw [ht]; rfl
    simp only [step, hnone]
    exact h

theorem addDocument (h : OnCourse a b o) (i : ℕ) (id : String) :
    OnCourse a b (step o (.addDocument i id)) := by
  -- only an `addDocument` that is under way is stored
  have hother : ∀ t, o.system.tasks = [t] → isCall t = false ∨ t = .asked 0 →
      OnCourse a b (step o (.addDocument i id)) := by
    intro t ht hcall
    rcases step_addDocument ht i id with heq | ⟨v, answer, data, rfl, -⟩
    · rwa [heq]
    · rcases hcall with hcall | hcall <;> cases hcall
  cases h.stage with
  | asked k hk ht hn hown => exact hother _ ht (Or.inr rfl)
  | answered k hk answer ht hn hanswer hfailed => exact hother _ ht (Or.inl rfl)
  | adding answer ht hn =>
    rcases step_addDocument ht i id with heq | ⟨v, answer', data, hadd, -, heq⟩
    · rwa [heq]
    · cases hadd
      rw [heq]
      exact h.addStored ht hn id
  | added err ht hn hown hfailed => exact hother _ ht (Or.inl rfl)
  | ended ht hn href =>
    have hnone : o.system.tasks[i]? = none := by rw [ht]; rfl
    simp only [step, hnone]
    exact h

theorem step (h : OnCourse a b o) (act : Action) : OnCourse a b (Opening.step o act) := by
  cases act with
  | other id data =>
    simp only [Opening.step]
    split
    · rename_i hid
      exact ⟨h.currentUser, h.targetUser, h.stage.other hid data⟩
    · exact h
  | advance i err => exact h.advance i err
  | addDocument i id => exact h.addDocument i id

/-- What is outstanding can go on without a failure. -/
theorem goesOn (h : OnCourse a b o) (hne : o.system.tasks ≠ []) :
    ∃ act, (Opening.step o act).steps = o.steps + 1 ∧ (Opening.step o act).failed = o.failed := by
  have hadvance : ∀ t, o.system.tasks = [t] → fails false t = false →
      ∃ act, (Opening.step o act).steps = o.steps + 1 ∧ (Opening.step o act).failed = o.failed := by
    intro t ht hfails
    have h0 : o.system.tasks[0]? = some t := by rw [ht]; rfl
    refine ⟨.advance 0 false, ?_⟩
    simp only [Opening.step, h0, Ledger.take, hfails, Bool.or_false, and_self]
  cases h.stage with
  | asked k hk ht hn hown => exact hadvance _ ht rfl
  | answered k hk answer ht hn hanswer hfailed => exact hadvance _ ht rfl
  | adding answer ht hn =>
    obtain ⟨id, hid⟩ := exists_fresh o.system.chats
    have h0 : o.system.tasks[0]? = some (.adding (some 0) answer (chatData [a, b])) := by rw [ht]; rfl
    refine ⟨.addDocument 0 id, ?_⟩
    simp only [Opening.step, h0, hid, Ledger.take, Bool.or_false, and_self]
  | added err ht hn hown hfailed => exact hadvance _ ht rfl
  | ended ht hn href => exact absurd ht hne

theorem opens (h : OnCourse a b o) : Opens a b o := by
  have hbounds : o.calls ≤ 3 ∧ o.stored ≤ 1 ∧ o.steps ≤ 6 := by
    cases h.stage with
    | asked k hk ht hn hown => omega
    | answered k hk answer ht hn hanswer hfailed => omega
    | adding answer ht hn => omega
    | added err ht hn hown hfailed => omega
    | ended ht hn href => exact hn
  refine ⟨hbounds.1, hbounds.2.1, hbounds.2.2, h.goesOn, fun hf hnil => ?_⟩
  cases h.stage with
  | asked k hk ht hn hown => rw [hnil] at ht; cases ht
  | answered k hk answer ht hn hanswer hfailed => rw [hnil] at ht; cases ht
  | adding answer ht hn => rw [hnil] at ht; cases ht
  | added err ht hn hown hfailed => rw [hnil] at ht; cases ht
  | ended ht hn href => exact href hf

end OnCourse

end Steps

/-- One call of `loadChat`, over any collection, for any two users and with any documents of
other clients in between, ends after two rounds at most. -/
theorem opens_run (chats : OrderedMap String Dict) (currentUser targetUser : String)
    (docReference : Option String) (as : List Action) :
    Opens currentUser targetUser
      (Runs.run step (start chats currentUser targetUser docReference) as) :=
  (Runs.invariant (I := OnCourse currentUser targetUser) (fun _ act h => h.step act)
    (onCourse_start chats currentUser targetUser docReference) as).opens

end JamSession.Chats.Opening
