import Mathlib.Data.Sym.Sym2
import JamSession.Chats.System
import JamSession.Firestore.PlainKit

/-! One chat for each pair of users. `loadChat` creates a chat if its query finds none, so the
chats stay unique as long as the answer still tells the truth when the `addDocument` arrives:
nothing of the pair was stored in between. `createNewChatWith` asks nothing, and its add is
safe only if the pair has no chat at all. References follow: a screen refers to a stored chat
of its two users, so two screens of one pair refer to one document. -/

namespace JamSession.Chats

section

variable [UIKit]

/-- The unordered pair of a chat of two distinct users. -/
def pairOf (d : Dict) : Option (Sym2 String) :=
  match chatUsers d with
  | some [a, b] => if a = b then none else some s(a, b)
  | _ => none

/-- At most one document for each pair, and one reference for the screens of the two sides. -/
structure OneChat (s : State) : Prop where
  stored : s.chats.Distinct pairOf
  shared : ∀ (v w : ℕ) (a b id id' : String), a ≠ b →
    (s.screens v).currentUser = a → (s.screens v).targetUser = some b →
    (s.screens w).currentUser = b → (s.screens w).targetUser = some a →
    (s.screens v).docReference = some id → (s.screens w).docReference = some id' → id = id'

/-- The condition on a step: when a new chat is stored, every chat of its pair was in the
answer it was decided on. -/
def AnswerHolds (s : State) : Action → Prop
  | .addDocument i id => match s.tasks[i]?, s.chats.get? id with
    | some (.adding _ answer data), none =>
      ∀ e ∈ s.chats.entries, (pairOf data).isSome → pairOf e.2 = pairOf data →
        e.1 ∈ answer.map Prod.fst
    | _, _ => True
  | _ => True

instance (s : State) (a : Action) : Decidable (AnswerHolds s a) := by
  cases a with
  | addDocument i id =>
    simp only [AnswerHolds]
    split <;> infer_instance
  | loadChat => exact isTrue trivial
  | createNewChatWith => exact isTrue trivial
  | advance => exact isTrue trivial

/-! ### Pairs -/

theorem pairOf_chatData {x y : String} (h : x ≠ y) : pairOf (chatData [x, y]) = some s(x, y) := by
  simp [pairOf, h]

theorem pairOf_chatData_eq {x y : String} {p : Sym2 String}
    (h : pairOf (chatData [x, y]) = some p) : x ≠ y ∧ p = s(x, y) := by
  by_cases hxy : x = y
  · simp [pairOf, hxy] at h
  · rw [pairOf_chatData hxy] at h
    exact ⟨hxy, (Option.some.inj h).symm⟩

/-- Two distinct users of a new chat are its pair. -/
theorem pairOf_of_mem {x y a b : String} (hab : a ≠ b) (ha : a ∈ [x, y]) (hb : b ∈ [x, y]) :
    pairOf (chatData [x, y]) = some s(a, b) := by
  simp only [List.mem_cons, List.not_mem_nil, or_false] at ha hb
  rcases ha with rfl | rfl <;> rcases hb with rfl | rfl
  · exact absurd rfl hab
  · exact pairOf_chatData hab
  · rw [pairOf_chatData (Ne.symm hab), Sym2.eq_swap]
  · exact absurd rfl hab

/-! ### What the screens know -/

/-- A document is a new chat of two users. -/
def IsChat (d : Dict) : Prop := ∃ x y, d = chatData [x, y]

/-- A document's chat has the user. -/
def HasUser (d : Dict) (uuid : String) : Prop := ∃ users, chatUsers d = some users ∧ uuid ∈ users

/-- What `chatWith` searches for. -/
theorem any_chatUsers {d : Dict} {target : String} :
    ((some target).any fun t => (chatUsers d).any fun users => t ∈ users) = true ↔
      HasUser d target := by
  simp [HasUser, Option.any_eq_true]

/-- What is known to a task: the documents of an answer are stored, and they are chats of the
screen's user; a new chat is not of a pair that its answer has a chat of. -/
def TaskKnown (s : State) : Task → Prop
  | .answered v (some documents) => ∀ e ∈ documents,
      s.chats.get? e.1 = some e.2 ∧ HasUser e.2 (s.screens v).currentUser
  | .adding _ answer data => IsChat data ∧ ∀ e ∈ answer,
      s.chats.get? e.1 = some e.2 ∧ ∀ p, pairOf data = some p → pairOf e.2 ≠ some p
  | _ => True

structure Known (s : State) : Prop where
  chats : ∀ id d, s.chats.get? id = some d → IsChat d
  screens : ∀ v id, (s.screens v).docReference = some id → ∃ d target, s.chats.get? id = some d ∧
    (s.screens v).targetUser = some target ∧
    HasUser d (s.screens v).currentUser ∧ HasUser d target
  tasks : ∀ t ∈ s.tasks, TaskKnown s t

theorem Initial.known {s : State} (h : Initial s) : Known s := by
  refine ⟨fun id d hd => ?_, fun v id hv => ?_, fun t ht => ?_⟩
  · rw [h.chats] at hd
    cases hd
  · rw [h.screens v] at hv
    cases hv
  · rw [h.tasks] at ht
    cases ht

/-- A chat with two distinct users is of their pair. -/
theorem pairOf_of_hasUser {d : Dict} {a b : String} (hd : IsChat d) (hab : a ≠ b)
    (ha : HasUser d a) (hb : HasUser d b) : pairOf d = some s(a, b) := by
  obtain ⟨x, y, rfl⟩ := hd
  simp only [HasUser, chatUsers_chatData, Option.some.injEq, exists_eq_left'] at ha hb
  exact pairOf_of_mem hab ha hb

/-- The references of two sides of a pair agree when the pair has one chat. -/
theorem Known.oneChat_iff {s : State} (h : Known s) : OneChat s ↔ s.chats.Distinct pairOf := by
  refine ⟨OneChat.stored, fun hd => ⟨hd, ?_⟩⟩
  intro v w a b id id' hab hva hvb hwb hwa hid hid'
  obtain ⟨d, t, hs, ht, hcur, htar⟩ := h.screens v id hid
  obtain ⟨d', t', hs', ht', hcur', htar'⟩ := h.screens w id' hid'
  rw [hva] at hcur
  rw [hwb] at hcur'
  rw [hvb] at ht
  rw [hwa] at ht'
  cases ht
  cases ht'
  exact hd id id' d d' s(a, b) hs hs' (pairOf_of_hasUser (h.chats id d hs) hab hcur htar)
    (pairOf_of_hasUser (h.chats id' d' hs') hab htar' hcur')

/-! ### One step -/

/-- Chats are not removed, and screens keep their users. -/
structure Extends (s s' : State) : Prop where
  chats : ∀ id d, s.chats.get? id = some d → s'.chats.get? id = some d
  currentUser : ∀ v, (s'.screens v).currentUser = (s.screens v).currentUser
  targetUser : ∀ v, (s'.screens v).targetUser = (s.screens v).targetUser

theorem Extends.of_screens {s s' : State} (hc : s'.chats = s.chats) (hs : s'.screens = s.screens) :
    Extends s s' :=
  ⟨fun id d hd => by rw [hc, hd], fun v => by rw [hs], fun v => by rw [hs]⟩

theorem extends_refer (s : State) (v : ℕ) (id : String) : Extends s (s.refer v id) := by
  refine ⟨fun _ _ hd => hd, fun w => ?_, fun w => ?_⟩ <;>
    · by_cases hw : w = v <;> simp [State.refer, hw]

theorem extends_store {s : State} {id : String} (hid : s.chats.get? id = none) (data : Dict) :
    Extends s (s.store id data) := by
  refine ⟨fun id' d hd => ?_, fun _ => rfl, fun _ => rfl⟩
  have hne : id' ≠ id := by
    rintro rfl
    rw [hid] at hd
    cases hd
  rw [State.store, OrderedMap.get?_set_of_ne _ _ hne, hd]

theorem TaskKnown.extends {s s' : State} (h : Extends s s') {t : Task} (ht : TaskKnown s t) :
    TaskKnown s' t := by
  match t, ht with
  | .answered v (some documents), ht =>
    intro e he
    rw [h.currentUser v]
    exact ⟨h.chats _ _ (ht e he).1, (ht e he).2⟩
  | .adding v answer data, ht => exact ⟨ht.1, fun e he => ⟨h.chats _ _ (ht.2 e he).1, (ht.2 e he).2⟩⟩
  | .answered v none, _ => trivial
  | .asked v, _ => trivial
  | .added v err, _ => trivial

namespace Known

variable {s : State}

theorem add (h : Known s) {t : Task} (ht : TaskKnown s t) : Known (s.add t) := by
  refine ⟨h.chats, h.screens, fun u hu => ?_⟩
  rcases List.mem_append.mp hu with hu | hu
  · exact h.tasks u hu
  · rw [List.mem_singleton.mp hu]
    exact ht

theorem drop (h : Known s) (i : ℕ) : Known (s.drop i) :=
  ⟨h.chats, h.screens, fun t ht => h.tasks t (List.mem_of_mem_eraseIdx ht)⟩

theorem refer (h : Known s) {v : ℕ} {id target : String} {d : Dict} (hd : s.chats.get? id = some d)
    (ht : (s.screens v).targetUser = some target) (hcur : HasUser d (s.screens v).currentUser)
    (htar : HasUser d target) : Known (s.refer v id) := by
  refine ⟨h.chats, fun w id' hid' => ?_, fun t ht => (h.tasks t ht).extends (extends_refer s v id)⟩
  by_cases hw : w = v
  · subst hw
    simp only [State.refer, Function.update_self, Option.some.injEq] at hid' ⊢
    subst hid'
    exact ⟨d, target, hd, ht, hcur, htar⟩
  · simp only [State.refer, Function.update_of_ne hw] at hid' ⊢
    exact h.screens w id' hid'

theorem store (h : Known s) {id : String} {data : Dict} (hid : s.chats.get? id = none)
    (hdata : IsChat data) : Known (s.store id data) := by
  have hext : Extends s (s.store id data) := extends_store hid data
  refine ⟨fun id' d hd => ?_, fun v id' hid' => ?_, fun t ht => (h.tasks t ht).extends hext⟩
  · simp only [State.store, OrderedMap.get?_set] at hd
    split_ifs at hd
    · cases hd
      exact hdata
    · exact h.chats id' d hd
  · obtain ⟨d, target, hd, hrest⟩ := h.screens v id' hid'
    exact ⟨d, target, hext.chats id' d hd, hrest⟩

theorem loadChat (h : Known s) (v : ℕ) : Known (loadChat s v) := by
  unfold Chats.loadChat
  split_ifs
  · exact h.add trivial
  · exact h

/-- A new chat of a screen whose answer has no chat with the target user. -/
theorem createNewChat (h : Known s) {v : ℕ} {documents : List (String × Dict)}
    (ha : TaskKnown s (.answered v (some documents)))
    (hnone : ∀ target, (s.screens v).targetUser = some target →
      ∀ e ∈ documents, ¬ HasUser e.2 target) : Known (createNewChat s v documents) := by
  unfold Chats.createNewChat
  split
  · exact h
  · next target ht =>
    refine h.add ⟨⟨_, _, rfl⟩, fun e he => ⟨(ha e he).1, fun p hp hpe => hnone target ht e he ?_⟩⟩
    obtain ⟨x, y, hxy⟩ := h.chats _ _ (ha e he).1
    obtain ⟨-, rfl⟩ := pairOf_chatData_eq hp
    rw [hxy] at hpe
    obtain ⟨-, heq⟩ := pairOf_chatData_eq hpe
    -- the pair of the document has the target user in it
    have hmem : target ∈ s(x, y) := heq ▸ Sym2.mem_mk_right _ _
    exact ⟨[x, y], by rw [hxy, chatUsers_chatData], by simpa using hmem⟩

theorem loadChatAnswered (h : Known s) {v : ℕ} {documents : Option (List (String × Dict))}
    (ha : TaskKnown s (.answered v documents)) : Known (loadChatAnswered s v documents) := by
  cases documents with
  | none => exact h
  | some documents =>
    simp only [Chats.loadChatAnswered]
    split_ifs with hlen
    · rw [List.length_eq_zero_iff] at hlen
      subst hlen
      exact h.createNewChat ha (by simp)
    · cases hfind : chatWith (s.screens v).targetUser documents with
      | some id =>
        obtain ⟨⟨id', d⟩, hfound, rfl⟩ := Option.map_eq_some_iff.mp hfind
        have hmem := List.mem_of_find?_eq_some hfound
        have hp := List.find?_some hfound
        simp only [Option.any_eq_true, decide_eq_true_eq] at hp
        obtain ⟨target, ht, users, hu, hin⟩ := hp
        exact h.refer (ha _ hmem).1 ht (ha _ hmem).2 ⟨users, hu, hin⟩
      | none =>
        refine h.createNewChat ha fun target ht e he hhas => ?_
        obtain ⟨users, hu, hin⟩ := hhas
        have hno := List.find?_eq_none.mp (Option.map_eq_none_iff.mp hfind) e he
        simp [ht, hu, hin] at hno

/-- The answer of a query: stored chats that have the screen's user. -/
theorem answer (h : Known s) (v : ℕ) : TaskKnown s (.answered v
    (some (s.chats.select fun _ d => arrayContains (s.screens v).currentUser d))) := by
  rintro ⟨id, d⟩ he
  obtain ⟨hd, hcontains⟩ := s.chats.mem_select.mp he
  refine ⟨hd, ?_⟩
  obtain ⟨x, y, rfl⟩ := h.chats id d hd
  exact ⟨[x, y], chatUsers_chatData _, (arrayContains_chatData _ _).mp hcontains⟩

theorem proceed (h : Known s) {t : Task} (ht : TaskKnown s t) (err : Bool) :
    Known (proceed s err t) := by
  match t, err, ht with
  | .asked v, true, _ => exact h.add trivial
  | .asked v, false, _ => exact h.add (h.answer v)
  | .answered v documents, _, ht => exact h.loadChatAnswered ht
  | .adding v answer data, _, _ => exact h.add trivial
  | .added (some v) false, _, _ => exact h.loadChat v
  | .added (some v) true, _, _ => exact h
  | .added none _, _, _ => exact h

theorem step (h : Known s) (a : Action) : Known (step s a) := by
  cases a with
  | loadChat v => exact h.loadChat v
  | createNewChatWith currentUser user => exact h.add ⟨⟨_, _, rfl⟩, by simp⟩
  | addDocument i id =>
    simp only [Chats.step]
    split
    · next v answer data hi hid =>
      exact ((h.drop i).store hid (h.tasks _ (List.mem_of_getElem? hi)).1).add trivial
    · exact h
  | advance i err =>
    simp only [Chats.step]
    split
    · next t hi => exact (h.drop i).proceed (h.tasks t (List.mem_of_getElem? hi)) err
    · exact h

end Known

/-! ### Runs -/

theorem createNewChat_chats (s : State) (v : ℕ) (answer : List (String × Dict)) :
    (createNewChat s v answer).chats = s.chats := by
  unfold createNewChat
  split <;> rfl

theorem loadChat_chats (s : State) (v : ℕ) : (loadChat s v).chats = s.chats := by
  unfold loadChat
  split_ifs <;> rfl

theorem proceed_chats (s : State) (err : Bool) (t : Task) :
    (proceed s err t).chats = s.chats := by
  match t, err with
  | .answered v none, _ => rfl
  | .answered v (some documents), _ =>
    simp only [proceed, loadChatAnswered]
    split_ifs
    · exact createNewChat_chats s v documents
    · split
      · rfl
      · exact createNewChat_chats s v documents
  | .added (some v) false, _ => exact loadChat_chats s v
  | .added (some v) true, _ => rfl
  | .added none _, _ => rfl
  | .asked v, _ => rfl
  | .adding v answer data, _ => rfl

theorem proceed_extends (s : State) (err : Bool) (t : Task) : Extends s (proceed s err t) := by
  have hnew : ∀ v answer, Extends s (createNewChat s v answer) := fun v answer => by
    unfold createNewChat
    split <;> exact Extends.of_screens rfl rfl
  match t, err with
  | .answered v none, _ => exact Extends.of_screens rfl rfl
  | .answered v (some documents), _ =>
    simp only [proceed, loadChatAnswered]
    split_ifs
    · exact hnew v documents
    · split
      · exact extends_refer s v _
      · exact hnew v documents
  | .added (some v) false, _ =>
    simp only [proceed, loadChat]
    split_ifs <;> exact Extends.of_screens rfl rfl
  | .added (some v) true, _ => exact Extends.of_screens rfl rfl
  | .added none _, _ => exact Extends.of_screens rfl rfl
  | .asked v, _ => exact Extends.of_screens rfl rfl
  | .adding v answer data, _ => exact Extends.of_screens rfl rfl

/-- No step removes a chat or changes the users of a screen. -/
theorem step_extends (s : State) (a : Action) : Extends s (step s a) := by
  cases a with
  | loadChat v =>
    simp only [step, loadChat]
    split_ifs <;> exact Extends.of_screens rfl rfl
  | createNewChatWith currentUser user => exact Extends.of_screens rfl rfl
  | advance i err =>
    simp only [step]
    split
    · next t ht =>
      have h := proceed_extends (s.drop i) err t
      exact ⟨h.chats, h.currentUser, h.targetUser⟩
    · exact Extends.of_screens rfl rfl
  | addDocument i id =>
    simp only [step]
    split
    · next v answer data hi hid =>
      have hid' : (s.drop i).chats.get? id = none := hid
      have h := extends_store hid' data
      exact ⟨h.chats, h.currentUser, h.targetUser⟩
    · exact Extends.of_screens rfl rfl

/-- An `addDocument` stores the data of its task under a fresh id, or does nothing. -/
theorem addDocument_cases (s : State) (i : ℕ) (id : String) :
    (∃ v answer data, s.tasks[i]? = some (.adding v answer data) ∧ s.chats.get? id = none) ∨
      step s (.addDocument i id) = s ∧ AnswerHolds s (.addDocument i id) := by
  rw [or_iff_not_imp_left]
  intro hno
  simp only [step, AnswerHolds]
  constructor <;> split
  · next v answer data hi hid => exact absurd ⟨v, answer, data, hi, hid⟩ hno
  · rfl
  · next v answer data hi hid => exact absurd ⟨v, answer, data, hi, hid⟩ hno
  · trivial

/-- A step keeps one chat a pair exactly if it meets the condition. -/
theorem distinct_step_iff {s : State} (h : Known s) (hd : s.chats.Distinct pairOf) (a : Action) :
    (step s a).chats.Distinct pairOf ↔ AnswerHolds s a := by
  cases a with
  | loadChat v =>
    rw [step, loadChat_chats]
    exact iff_of_true hd trivial
  | createNewChatWith currentUser user => exact iff_of_true hd trivial
  | advance i err =>
    refine iff_of_true ?_ trivial
    simp only [step]
    split
    · rw [proceed_chats]
      exact hd
    · exact hd
  | addDocument i id =>
    obtain ⟨v, answer, data, hi, hid⟩ | ⟨hstep, hC⟩ := addDocument_cases s i id
    · obtain ⟨-, ha⟩ := h.tasks _ (List.mem_of_getElem? hi)
      simp only [step, AnswerHolds, hi, hid]
      show (s.chats.set id data).Distinct pairOf ↔ _
      rw [hd.set_iff hid data]
      constructor
      · rintro hnew ⟨j, d⟩ he hsome heq
        obtain ⟨p, hp⟩ := Option.isSome_iff_exists.mp hsome
        exact absurd (heq.trans hp) (hnew p hp j d (s.chats.get?_eq_some_iff.mpr he))
      · intro hC p hp j d hj hpd
        have hin := hC (j, d) (s.chats.get?_eq_some_iff.mp hj) (by simp [hp]) (hpd.trans hp.symm)
        obtain ⟨⟨j', d'⟩, he, rfl⟩ := List.mem_map.mp hin
        obtain ⟨hstored, hother⟩ := ha _ he
        -- the chat in the answer is the stored one, and not of this pair
        obtain rfl : d' = d := Option.some.inj (hstored.symm.trans hj)
        exact hother p hp hpd
    · rw [hstep]
      exact iff_of_true hd hC

/-- There is one chat for each pair in every state of a run, and its two sides share it, if and
only if each new chat is stored while the answer it was decided on still holds. -/
theorem oneChat_iff_steps {s : State} (hs : Initial s) (as : List Action) :
    Runs.Always step OneChat s as ↔ Runs.Each step AnswerHolds s as := by
  apply Runs.always_iff_each (I := fun s => Known s ∧ s.chats.Distinct pairOf)
  · rintro t ⟨hk, hd⟩
    exact hk.oneChat_iff.mpr hd
  · rintro t a ⟨hk, hd⟩
    rw [(hk.step a).oneChat_iff]
    exact distinct_step_iff hk hd a
  · rintro t a ⟨hk, hd⟩ hC
    exact ⟨hk.step a, (distinct_step_iff hk hd a).mpr hC⟩
  · refine ⟨hs.known, fun j k v w p hj => ?_⟩
    rw [hs.chats] at hj
    cases hj

end

open PlainKit

/-- Ann has a chat screen for Bob and Bob one for Ann, over no chats. -/
def annAndBob : State where
  chats := ∅
  screens v := if v = 0 then ⟨"a", some "b", none⟩ else ⟨"b", some "a", none⟩
  tasks := []

theorem initial_annAndBob : Initial annAndBob :=
  ⟨rfl, fun v => by by_cases hv : v = 0 <;> simp [annAndBob, hv], rfl⟩

/-- Both queries are answered before either chat is stored. Ann's screen has found her chat by
the time Bob's is stored, with a smaller id. -/
def bothCreate : List Action :=
  [.loadChat 0, .loadChat 1, .advance 0 false, .advance 0 false, .advance 0 false,
    .advance 0 false, .addDocument 0 "m", .advance 1 false, .advance 1 false, .advance 1 false,
    .addDocument 0 "k", .advance 0 false, .advance 0 false, .advance 0 false]

theorem bothCreate_twoChats :
    (Runs.run step annAndBob bothCreate).chats.entries.map (fun e => (e.1, pairOf e.2)) =
        [("k", some s("a", "b")), ("m", some s("a", "b"))] ∧
      ((Runs.run step annAndBob bothCreate).screens 0).docReference = some "m" ∧
      ((Runs.run step annAndBob bothCreate).screens 1).docReference = some "k" ∧
      ¬ Runs.Always step OneChat annAndBob bothCreate := by
  have h0 : ((Runs.run step annAndBob bothCreate).screens 0).docReference = some "m" := by
    decide +kernel
  have h1 : ((Runs.run step annAndBob bothCreate).screens 1).docReference = some "k" := by
    decide +kernel
  refine ⟨by decide +kernel, h0, h1, fun h => ?_⟩
  have hend : OneChat (Runs.run step annAndBob bothCreate) := h.last
  have heq := hend.shared 0 1 "a" "b" "m" "k" (by decide) (by decide +kernel) (by decide +kernel)
    (by decide +kernel) (by decide +kernel) h0 h1
  exact absurd heq (by decide)

/-- Bob's screen asks when Ann's chat is stored. -/
def annThenBob : List Action :=
  [.loadChat 0, .advance 0 false, .advance 0 false, .addDocument 0 "m", .loadChat 1,
    .advance 0 false, .advance 0 false, .advance 0 false, .advance 0 false, .advance 0 false]

theorem oneChat_iff_steps_annThenBob :
    ((Runs.run step annAndBob annThenBob).screens 0).docReference = some "m" ∧
      ((Runs.run step annAndBob annThenBob).screens 1).docReference = some "m" ∧
      Runs.Always step OneChat annAndBob annThenBob :=
  ⟨by decide +kernel, by decide +kernel,
    (oneChat_iff_steps initial_annAndBob annThenBob).mpr (by decide +kernel)⟩

end JamSession.Chats
