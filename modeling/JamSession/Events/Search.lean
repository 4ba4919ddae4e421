import Mathlib.Data.List.Nodup
import Mathlib.Data.List.Perm.Basic
import JamSession.Events.Codec
import JamSession.Library.Runs

/-! The search bar of `SearchEventsViewController`. Every change of the text starts a search,
unless the text is empty; an answer that comes back with events replaces the list, whichever
text it is for, and a failure leaves it. Proved for all texts and every order of the answers:
each text that is not empty has one search, and the list is that of the success that came back
last. As long as no success comes back after that of a later text, it is the list for the latest
text whose search has succeeded. -/

namespace JamSession.SearchEvents

section

variable [UIKit] [Foundation]

/-- A search is known by the number of its text. `texts` are the texts typed so far and
`answers` the answers that came back, newest first; both are kept for statements alone. -/
structure State where
  pulledEvents : List Event
  searches : List ℕ
  texts : List String
  answers : List (ℕ × Except FireError (List Event))

def start : State := ⟨[], [], [], []⟩

/-- The text changes, or the search at an index of `searches` is answered. -/
inductive Action
  | textDidChange (searchText : String)
  | answer (i : ℕ) (res : Except FireError (List Event))

namespace State

/-- The delegate method; the search it starts gets the number `n`. -/
def textDidChange (s : State) (n : ℕ) (searchText : String) : State :=
  if searchText.isEmpty then s else { s with searches := s.searches ++ [n] }

/-- The callback of a search. -/
def answered (s : State) : Except FireError (List Event) → State
  | .ok events => { s with pulledEvents := events }
  | .error _ => s

def record (s : State) (n : ℕ) (res : Except FireError (List Event)) : State :=
  { s with answers := (n, res) :: s.answers }

/-- The answers with events. -/
def found (s : State) : List (ℕ × List Event) :=
  s.answers.filterMap fun a => a.2.toOption.map fun events => (a.1, events)

end State

def step (s : State) : Action → State
  | .textDidChange searchText =>
    { s.textDidChange s.texts.length searchText with texts := s.texts ++ [searchText] }
  | .answer i res => match s.searches[i]? with
    | some n => ({ s with searches := s.searches.eraseIdx i }.answered res).record n res
    | none => s

/-! ### The latest search -/

/-- When no answer is outstanding, the list is the one for the last text, or empty. -/
def LatestWins (s : State) : Prop := s.searches = [] →
  s.pulledEvents = ((s.found.find? fun p => p.1 = s.texts.length - 1).map Prod.snd).getD []

/-- No success comes back after that of a later text. -/
def InOrder (s : State) : Action → Prop
  | .answer i (.ok _) => ∀ n ∈ s.searches[i]?, ∀ p ∈ s.found, p.1 ≤ n
  | _ => True

/-- The numbers of the texts that are not empty. -/
def terms (texts : List String) : List ℕ :=
  (List.range texts.length).filter fun n => texts[n]? ≠ some ""

/-- Each text that is not empty has started one search, which is outstanding or was answered
once; an empty text has started none. -/
def Numbered (s : State) : Prop := (s.answers.map Prod.fst ++ s.searches).Perm (terms s.texts)

/-- The list is that of the success that came back last. -/
def ShowsNewest (s : State) : Prop := s.pulledEvents = (s.found.head?.map Prod.snd).getD []

/-- The list is the one for the latest text whose search has succeeded, and empty if none has.
When no answer is outstanding, the search for the last text that is not empty has been answered,
and the list is its answer if that has events. -/
structure ShowsLatest (s : State) : Prop where
  latest : ∀ p ∈ s.found, (∀ q ∈ s.found, q.1 ≤ p.1) → s.pulledEvents = p.2
  nothing : s.found = [] → s.pulledEvents = []
  settled : s.searches = [] → ∀ n ∈ terms s.texts, (∀ m ∈ terms s.texts, m ≤ n) →
    ∃ res, (n, res) ∈ s.answers ∧ ∀ events, res = .ok events → s.pulledEvents = events

/-! ### Numbers of texts -/

section Steps

omit [UIKit] [Foundation] in
theorem terms_append (texts : List String) (text : String) :
    terms (texts ++ [text]) = terms texts ++ if text = "" then [] else [texts.length] := by
  have hold : ∀ n ∈ List.range texts.length,
      decide ((texts ++ [text])[n]? ≠ some "") = decide (texts[n]? ≠ some "") := by
    intro n hn
    rw [List.getElem?_append_left (List.mem_range.mp hn)]
  rw [terms, List.length_append, List.length_singleton, List.range_succ, List.filter_append,
    List.filter_congr hold, terms]
  congr 1
  by_cases h : text = "" <;> simp [h]

variable {s : State}

theorem perm_eraseIdx {i n : ℕ} (hi : s.searches[i]? = some n) :
    s.searches.Perm (n :: s.searches.eraseIdx i) := by
  obtain ⟨hlt, rfl⟩ := List.getElem?_eq_some_iff.mp hi
  exact (List.getElem_cons_eraseIdx_perm hlt).symm

/-- An answer moves its search from the outstanding ones to the answered ones. -/
theorem perm_answered {i n : ℕ} (hi : s.searches[i]? = some n) :
    (n :: s.answers.map Prod.fst ++ s.searches.eraseIdx i).Perm
      (s.answers.map Prod.fst ++ s.searches) :=
  List.perm_middle.symm.trans ((perm_eraseIdx hi).symm.append_left _)

theorem Numbered.step (h : Numbered s) (a : Action) : Numbered (step s a) := by
  cases a with
  | textDidChange searchText =>
    simp only [Numbered, SearchEvents.step, State.textDidChange, terms_append]
    by_cases hempty : searchText = ""
    · rw [if_pos (by simp [hempty]), if_pos hempty, List.append_nil]
      exact h
    · rw [if_neg (by simpa using hempty), if_neg hempty, ← List.append_assoc]
      exact h.append_right _
  | answer i res =>
    simp only [SearchEvents.step]
    split
    · rename_i n hi
      cases res with
      | ok events => exact (perm_answered hi).trans h
      | error err => exact (perm_answered hi).trans h
    · exact h

/-- No text has two searches. -/
theorem Numbered.nodup (h : Numbered s) : (s.answers.map Prod.fst ++ s.searches).Nodup :=
  h.nodup_iff.mpr (List.nodup_range.filter _)

theorem mem_found {p : ℕ × List Event} : p ∈ s.found ↔ (p.1, .ok p.2) ∈ s.answers := by
  simp only [State.found, List.mem_filterMap]
  constructor
  · rintro ⟨⟨n, res⟩, hmem, hres⟩
    cases res with
    | ok events =>
      cases hres
      exact hmem
    | error err => cases hres
  · exact fun hmem => ⟨_, hmem, rfl⟩

theorem found_record_ok (s : State) (n : ℕ) (events : List Event) :
    (s.record n (.ok events)).found = (n, events) :: s.found := rfl

theorem ShowsNewest.step (h : ShowsNewest s) (a : Action) : ShowsNewest (step s a) := by
  cases a with
  | textDidChange searchText =>
    simp only [SearchEvents.step, State.textDidChange]
    split_ifs <;> exact h
  | answer i res =>
    simp only [SearchEvents.step]
    split
    · cases res with
      | ok events => rfl
      | error err => exact h
    · exact h

/-- The successes are newest first in the order of their texts. -/
def Descending (s : State) : Prop := s.found.Pairwise fun p q => q.1 < p.1

theorem Descending.step (h : Descending s) (hn : Numbered s) {a : Action} (ha : InOrder s a) :
    Descending (step s a) := by
  cases a with
  | textDidChange searchText =>
    simp only [SearchEvents.step, State.textDidChange]
    split_ifs <;> exact h
  | answer i res =>
    simp only [SearchEvents.step]
    split
    · rename_i n hi
      cases res with
      | ok events =>
        rw [Descending, found_record_ok]
        refine List.pairwise_cons.mpr ⟨fun q hq => ?_, h⟩
        have hle : q.1 ≤ n := ha n hi q hq
        have hne : q.1 ≠ n := by
          rintro rfl
          exact (List.nodup_append.mp hn.nodup).2.2 q.1 (List.mem_map_of_mem (mem_found.mp hq)) q.1
            (List.mem_of_getElem? hi) rfl
        exact lt_of_le_of_ne hle hne
      | error err => exact h
    · exact h

/-- With the successes in the order of their texts, the newest is the one for the latest. -/
theorem Descending.latest (h : Descending s) (hs : ShowsNewest s) {p : ℕ × List Event}
    (hp : p ∈ s.found) (hmax : ∀ q ∈ s.found, q.1 ≤ p.1) : s.pulledEvents = p.2 := by
  rw [Descending] at h
  rw [ShowsNewest] at hs
  cases hfound : s.found with
  | nil =>
    rw [hfound] at hp
    cases hp
  | cons q found =>
    rw [hfound] at hs hp hmax h
    rcases List.mem_cons.mp hp with rfl | hp
    · exact hs
    · have hlt := (List.pairwise_cons.mp h).1 p hp
      have hle := hmax q List.mem_cons_self
      omega

theorem Descending.showsLatest (h : Descending s) (hn : Numbered s) (hs : ShowsNewest s) :
    ShowsLatest s := by
  refine ⟨fun p hp hmax => h.latest hs hp hmax, fun hnone => ?_, fun hdone n hterm hlast => ?_⟩
  · rw [hs, hnone]
    rfl
  · have hanswered : ∀ m, m ∈ s.answers.map Prod.fst ↔ m ∈ terms s.texts := by
      intro m
      rw [← hn.mem_iff, hdone, List.append_nil]
    obtain ⟨⟨m, res⟩, hmem, rfl⟩ := List.mem_map.mp ((hanswered n).mpr hterm)
    refine ⟨res, hmem, ?_⟩
    rintro events rfl
    refine h.latest hs (mem_found (p := (m, events)).mpr hmem) fun q hq => hlast q.1 ?_
    exact (hanswered q.1).mp (List.mem_map_of_mem (mem_found.mp hq))

end Steps

/-! ### Runs -/

theorem numbered_start : Numbered start := List.Perm.refl _

theorem showsNewest_start : ShowsNewest start := rfl

theorem descending_start : Descending start := List.Pairwise.nil

/-- For every sequence of texts and answers: each text that is not empty has one search, and the
list is that of the newest success; it is the one for the latest text as long as no success comes
back after that of a later text. -/
theorem pulledEvents_run (as : List Action) :
    Runs.Always step (fun s => Numbered s ∧ ShowsNewest s) start as ∧
      (Runs.Each step InOrder start as → Runs.Always step ShowsLatest start as) := by
  constructor
  · exact Runs.always_of_invariant (fun s a h => ⟨h.1.step a, h.2.step a⟩)
      ⟨numbered_start, showsNewest_start⟩ as
  · intro hC
    exact (Runs.always_of_each (C := InOrder)
      (I := fun s => Descending s ∧ Numbered s ∧ ShowsNewest s)
      (fun s a h ha => ⟨h.1.step h.2.1 ha, h.2.1.step a, h.2.2.step a⟩)
      ⟨descending_start, numbered_start, showsNewest_start⟩ hC).mono
        fun s h => h.1.showsLatest h.2.1 h.2.2

end

open PlainKit PlainFoundation

/-- What a search for Ann's jam finds. -/
def jams : List Event := [jam ⟨.finite 64, .finite 32⟩]

/-- The text is cleared after a success, or replaced by one whose search fails, or the answer
for an earlier text comes back last. -/
theorem staleEvents :
    ¬ LatestWins (Runs.run step start
      [.textDidChange "jam", .answer 0 (.ok jams), .textDidChange ""]) ∧
    ¬ LatestWins (Runs.run step start
      [.textDidChange "jam", .answer 0 (.ok jams), .textDidChange "jams",
        .answer 0 (.error .noData)]) ∧
    ¬ LatestWins (Runs.run step start
      [.textDidChange "ja", .textDidChange "jam", .answer 1 (.ok jams), .answer 0 (.ok [])]) := by
  refine ⟨fun h => ?_, fun h => ?_, fun h => ?_⟩
  · cases h rfl
  · cases h rfl
  · cases h rfl

theorem pulledEvents_run_jams : Runs.Always step ShowsLatest start
    [.textDidChange "ja", .textDidChange "jam", .textDidChange "", .answer 0 (.ok []),
      .answer 0 (.ok jams)] := by
  refine (pulledEvents_run _).2 ⟨trivial, trivial, trivial, nofun, ?_, trivial⟩
  rintro n ⟨⟩ p hp
  rw [List.mem_singleton.mp hp]
  exact Nat.zero_le 1

end JamSession.SearchEvents
