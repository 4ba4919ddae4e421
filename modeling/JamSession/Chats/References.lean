import JamSession.Chats.ChatList

/-! The document that a chat screen refers to. `loadChat` sets the reference again each time it
finds a chat, and the first one of an answer can change, so the conversation of a screen can move
to another document while it is open. It never does where the pair of users has one chat: the
reference of a screen of two different users is then set once and for all. -/

namespace JamSession.Chats

section

variable [UIKit]

/-- The step leaves the screen `v` with a reference to the document. -/
def Attaches (v : ℕ) (id : String) (s : State) (a : Action) : Prop :=
  ((step s a).screens v).docReference = some id

/-! ### Setting the reference -/

theorem screens_loadChat (s : State) (v : ℕ) : (loadChat s v).screens = s.screens := by
  unfold loadChat
  split_ifs <;> rfl

/-- An answer sets the reference of its screen, or none. -/
theorem screens_loadChatAnswered (s : State) (v : ℕ) (documents : Option (List (String × Dict))) :
    (loadChatAnswered s v documents).screens = s.screens ∨
      ∃ id, (loadChatAnswered s v documents).screens = (s.refer v id).screens := by
  unfold loadChatAnswered
  split
  · exact Or.inl rfl
  · split_ifs
    · exact Or.inl (docReference_createNewChat s v _)
    · split
      · exact Or.inr ⟨_, rfl⟩
      · exact Or.inl (docReference_createNewChat s v _)

theorem screens_proceed (s : State) (err : Bool) (t : Task) :
    (proceed s err t).screens = s.screens ∨
      ∃ v id, (proceed s err t).screens = (s.refer v id).screens := by
  match t, err with
  | .answered v documents, _ =>
    rcases screens_loadChatAnswered s v documents with h | ⟨id, h⟩
    · exact Or.inl h
    · exact Or.inr ⟨v, id, h⟩
  | .added (some v) false, _ => exact Or.inl (screens_loadChat s v)
  | .added (some v) true, _ => exact Or.inl rfl
  | .added none _, _ => exact Or.inl rfl
  | .asked v, _ => exact Or.inl rfl
  | .adding v answer data, _ => exact Or.inl rfl

theorem screens_step (s : State) (a : Action) : (step s a).screens = s.screens ∨
    ∃ v id, (step s a).screens = (s.refer v id).screens := by
  cases a with
  | loadChat v => exact Or.inl (screens_loadChat s v)
  | createNewChatWith currentUser user => exact Or.inl rfl
  | addDocument i id =>
    simp only [step]
    split <;> exact Or.inl rfl
  | advance i err =>
    simp only [step]
    split
    · exact screens_proceed (s.drop i) err _
    · exact Or.inl rfl

/-- A screen that refers to a document goes on referring to one. -/
theorem referring_step {s : State} {v : ℕ} (h : (s.screens v).docReference ≠ none) (a : Action) :
    ((step s a).screens v).docReference ≠ none := by
  rcases screens_step s a with hs | ⟨w, id, hs⟩
  · rwa [hs]
  · rw [hs]
    by_cases hv : v = w
    · subst hv
      simp [State.refer]
    · simpa [State.refer, hv] using h

/-! ### Keeping it -/

/-- If no pair has two chats after the step, it changes no reference of two different users. -/
theorem docReference_step {s : State} (h : Known s) {a : Action}
    (hd : (step s a).chats.Distinct pairOf) {v : ℕ}
    (hv : (s.screens v).targetUser ≠ some (s.screens v).currentUser) {id : String}
    (hid : (s.screens v).docReference = some id) :
    ((step s a).screens v).docReference = some id := by
  have hext := step_extends s a
  have hsome : (s.screens v).docReference ≠ none := by simp [hid]
  obtain ⟨id', hid'⟩ := Option.ne_none_iff_exists'.mp (referring_step hsome a)
  obtain ⟨d, target, hs, ht, hcur, htar⟩ := h.screens v id hid
  obtain ⟨d', target', hs', ht', hcur', htar'⟩ := (h.step a).screens v id' hid'
  rw [hext.targetUser v, ht, Option.some.injEq] at ht'
  subst ht'
  rw [hext.currentUser v] at hcur'
  have hne : (s.screens v).currentUser ≠ target := by
    rintro heq
    rw [ht, heq] at hv
    exact hv rfl
  -- the old and the new document are chats of the screen's two users
  have hpair := pairOf_of_hasUser (h.chats id d hs) hne hcur htar
  have hpair' := pairOf_of_hasUser ((h.step a).chats id' d' hs') hne hcur' htar'
  rw [hid', hd id' id d' d _ hs' (hext.chats id d hs) hpair' hpair]

/-- As long as each new chat is stored while the answer it was decided on still holds, a screen
of two different users keeps the document that it refers to. -/
theorem reference_run {s : State} (hs : Initial s) {as : List Action}
    (has : Runs.Each step AnswerHolds s as) {v : ℕ}
    (hv : (s.screens v).targetUser ≠ some (s.screens v).currentUser) (id : String) :
    Runs.After step (Attaches v id) (fun t => (t.screens v).docReference = some id)
      (fun _ _ => False) s as := by
  have hdistinct : s.chats.Distinct pairOf := by
    intro j k d e p hj
    rw [hs.chats] at hj
    cases hj
  refine Runs.after_of_each (C := AnswerHolds)
    (I := fun t => (Known t ∧ t.chats.Distinct pairOf) ∧
      (t.screens v).targetUser ≠ some (t.screens v).currentUser)
    (J := fun t => (t.screens v).docReference = some id) (fun _ h => h) ?_ ?_ ?_
    ⟨⟨hs.known, hdistinct⟩, hv⟩ has
  · rintro t a ⟨⟨hk, hd⟩, hne⟩ ha
    have hext := step_extends t a
    exact ⟨⟨hk.step a, (distinct_step_iff hk hd a).mpr ha⟩,
      by rwa [hext.targetUser v, hext.currentUser v]⟩
  · intro t a _ _ hT
    exact hT
  · rintro t a ⟨⟨hk, hd⟩, hne⟩ ha hid -
    exact docReference_step hk ((distinct_step_iff hk hd a).mpr ha) hne hid

end

open PlainKit

/-- Ann's screen has created the chat and found it, and looks for it again. -/
def annTwice : List Action := annThenBob ++
  [.loadChat 0, .advance 0 false, .advance 0 false]

theorem reference_run_annTwice :
    ((Runs.run step annAndBob annThenBob).screens 0).docReference = some "m" ∧
      Runs.After step (Attaches 0 "m") (fun t => (t.screens 0).docReference = some "m")
        (fun _ _ => False) annAndBob annTwice :=
  ⟨by decide +kernel, reference_run initial_annAndBob (by decide +kernel) (by decide) "m"⟩

end JamSession.Chats
