import JamSession.Events.Matching
import JamSession.Events.Search

/-! The search screen with the controller behind it. What is typed becomes a query over the
stored events, its answer goes through the decodes of `getAllEventsMatching`, and what the
completion is called with becomes the list of the screen. The completion is called before any
decode can succeed, so the list never has an event, in any run; and what a run can do instead is
end, exactly when an answer has a document whose location has fewer than two parts. No document
that `toFireObj` writes is one. -/

namespace JamSession.SearchScreen

open Event EventController

section

variable [UIKit] [Foundation]

/-- The `Events` collection, the screen, and the searches whose decodes still look up users.
A decode that traps ends the program. -/
structure State where
  events : OrderedMap String Dict
  screen : SearchEvents.State
  matchings : List Matching
  trapped : Bool

def start (events : OrderedMap String Dict) : State := ⟨events, SearchEvents.start, [], false⟩

/-- A document is stored by anybody, the text changes, the query of the search at an index is
answered, or a lookup of the matching at an index calls back. -/
inductive Action
  | setEvent (id : String) (d : Dict)
  | textDidChange (searchText : String)
  | answer (i : ℕ) (err : Bool)
  | callback (j : ℕ) (o : ℕ → Outcomes) (p : ℕ × ℕ)

/-- The callback of the query runs, and calls its completion for the text number `n`. -/
def answered (s : State) (i n : ℕ) (documents : Option (List Dict)) : State :=
  match getAllEventsMatching documents with
  | none => { s with trapped := true }
  | some m => { s with
      screen := m.completions.foldl (fun screen res => (screen.answered res).record n res)
        { s.screen with searches := s.screen.searches.eraseIdx i }
      matchings := s.matchings ++ [m] }

/-- The documents that the query of the search at index `i` finds now, with its text's number. -/
def found (s : State) (i : ℕ) : Option (ℕ × List Dict) := do
  let n ← s.screen.searches[i]?
  let term ← s.screen.texts[n]?
  return (n, query term s.events)

def step (s : State) (a : Action) : State :=
  if s.trapped then s else
    match a with
    | .setEvent id d => { s with events := s.events.set id d }
    | .textDidChange searchText =>
      { s with screen := SearchEvents.step s.screen (.textDidChange searchText) }
    | .answer i err => match found s i with
      | some (n, documents) => answered s i n (if err then none else some documents)
      | none => s
    | .callback j o p => match s.matchings[j]? with
      | some m => { s with matchings := s.matchings.set j (EventController.step o m p) }
      | none => s

/-! ### No events -/

/-- The completion of a search gets no events. -/
theorem completions_getAllEventsMatching {documents : Option (List Dict)} {m : Matching}
    (h : getAllEventsMatching documents = some m) :
    ∀ events, .ok events ∈ m.completions → events = [] := by
  intro events hmem
  cases documents with
  | none =>
    cases h
    cases List.mem_singleton.mp hmem
  | some docs =>
    -- the outcomes of lookups play no part before the completion is called
    have hstarted := started h fun _ => ⟨.error .noSuchUser, fun _ => .error .noSuchUser⟩
    rw [hstarted.completions, List.mem_singleton] at hmem
    split_ifs at hmem
    exact Except.ok.inj hmem

theorem pulledEvents_completions {n : ℕ} {completions : List (Except FireError (List Event))}
    (hc : ∀ events, .ok events ∈ completions → events = []) {screen : SearchEvents.State}
    (hs : screen.pulledEvents = []) :
    (completions.foldl (fun screen res => (screen.answered res).record n res)
      screen).pulledEvents = [] := by
  induction completions generalizing screen with
  | nil => exact hs
  | cons res completions ih =>
    refine ih (fun events h => hc events (List.mem_cons_of_mem _ h)) ?_
    cases res with
    | error err => exact hs
    | ok events => exact hc events List.mem_cons_self

theorem pulledEvents_step {s : State} (h : s.screen.pulledEvents = []) (a : Action) :
    (step s a).screen.pulledEvents = [] := by
  unfold step
  split_ifs
  · exact h
  cases a with
  | setEvent id d => exact h
  | textDidChange searchText =>
    show (s.screen.textDidChange s.screen.texts.length searchText).pulledEvents = []
    unfold SearchEvents.State.textDidChange
    split_ifs <;> exact h
  | answer i err =>
    dsimp only
    split
    · next n documents hfound =>
      unfold answered
      split
      · exact h
      · next m hm => exact pulledEvents_completions (completions_getAllEventsMatching hm) h
    · exact h
  | callback j o p =>
    dsimp only
    split <;> exact h

/-- Whatever events are stored and whatever is typed, in every state of every run the screen
lists no event. -/
theorem noEvents_run (events : OrderedMap String Dict) (as : List Action) :
    Runs.Always step (fun s => s.screen.pulledEvents = []) (start events) as :=
  Runs.always_of_invariant (fun _ a h => pulledEvents_step h a) rfl as

/-! ### Traps -/

/-- The document has all its fields, and a location of fewer than two parts. -/
def Traps (d : Dict) : Prop := ∃ t, casts d = some t ∧ (split t.locationn).length < 2

theorem trapped_iff {d : Dict} : readFields d = .trapped ↔ Traps d := by
  unfold readFields Traps
  cases casts d with
  | none => simp
  | some t =>
    simp only [Option.some.injEq, exists_eq_left']
    match split t.locationn with
    | [] => simp
    | [lat] => simp
    | lat :: long :: parts =>
      simp only [List.length_cons]
      refine iff_of_false ?_ (by omega)
      split
      · simp
      · simp

/-- The step brings no answer with a document that traps. -/
def Survives (s : State) : Action → Prop
  | .answer i false => ∀ p ∈ found s i, ∀ d ∈ p.2, ¬ Traps d
  | _ => True

theorem getAllEventsMatching_eq_none {docs : List Dict} :
    getAllEventsMatching (some docs) = none ↔ ∃ d ∈ docs, Traps d := by
  rw [← not_iff_not, ← ne_eq, Option.ne_none_iff_exists', getAllEventsMatching_isSome]
  simp only [not_exists, not_and, ne_eq, trapped_iff]

theorem trapped_answered {s : State} (hs : s.trapped = false) (i n : ℕ)
    (documents : Option (List Dict)) :
    (answered s i n documents).trapped = false ↔ getAllEventsMatching documents ≠ none := by
  unfold answered
  cases h : getAllEventsMatching documents with
  | none => simp
  | some m => simp [hs]

theorem trapped_step_iff {s : State} (hs : s.trapped = false) (a : Action) :
    (step s a).trapped = false ↔ Survives s a := by
  have hgoes : ¬ s.trapped = true := by simp [hs]
  unfold step
  rw [if_neg hgoes]
  cases a with
  | setEvent id d => exact iff_of_true hs trivial
  | textDidChange searchText => exact iff_of_true hs trivial
  | answer i err =>
    dsimp only
    cases hfound : found s i with
    | none =>
      cases err with
      | true => exact iff_of_true hs trivial
      | false => exact iff_of_true hs (by simp [Survives, hfound])
    | some p =>
      dsimp only
      rw [trapped_answered hs]
      cases err with
      | true => exact iff_of_true (by simp [getAllEventsMatching]) trivial
      | false =>
        rw [ne_eq, if_neg Bool.false_ne_true, getAllEventsMatching_eq_none]
        simp [Survives, hfound]
  | callback j o p =>
    refine iff_of_true ?_ trivial
    dsimp only
    split <;> exact hs

/-- A run ends in a trap if and only if one of its answers has a document that traps. -/
theorem survives_iff_steps (events : OrderedMap String Dict) (as : List Action) :
    Runs.Always step (fun s => s.trapped = false) (start events) as ↔
      Runs.Each step Survives (start events) as :=
  Runs.always_iff_each (I := fun s : State => s.trapped = false) (fun _ h => h)
    (fun _ a h => trapped_step_iff h a) (fun _ a h hC => (trapped_step_iff h a).mpr hC) rfl as

/-! ### Events that the program wrote -/

/-- The location of an encoded event has two parts, whatever its coordinates are. -/
theorem not_traps_toFireObj {Day : Type*} {day : Foundation.Date → Day} (h : Documented day)
    (e : Event) : ¬ Traps e.toFireObj := by
  rintro ⟨t, ht, hparts⟩
  rw [casts_toFireObj, Option.some.injEq] at ht
  subst ht
  simp only [locationText, h.split_print, List.length_cons, List.length_nil] at hparts
  omega

/-- What is stored is an encoded event. -/
def Encodes : Action → Prop
  | .setEvent _ d => ∃ e : Event, d = e.toFireObj
  | _ => True

/-- No event of the store traps. -/
def Readable (s : State) : Prop := ∀ id d, s.events.get? id = some d → ¬ Traps d

theorem Readable.survives {s : State} (h : Readable s) (a : Action) : Survives s a := by
  cases a with
  | answer i err =>
    cases err with
    | true => trivial
    | false =>
      intro p hp d hd
      simp only [found, Option.bind_eq_bind, Option.pure_def, Option.mem_def,
        Option.bind_eq_some_iff, Option.some.injEq] at hp
      obtain ⟨n, -, term, -, rfl⟩ := hp
      obtain ⟨e, he, rfl⟩ := List.mem_map.mp hd
      have hget := (s.events.mem_select.mp he).1
      exact h e.1 e.2 hget
  | setEvent | textDidChange | callback => trivial

theorem events_answered (s : State) (i n : ℕ) (documents : Option (List Dict)) :
    (answered s i n documents).events = s.events := by
  unfold answered
  split <;> rfl

theorem Readable.step {Day : Type*} {day : Foundation.Date → Day} (hday : Documented day)
    {s : State} (h : Readable s) {a : Action} (ha : Encodes a) : Readable (step s a) := by
  unfold SearchScreen.step
  split_ifs
  · exact h
  cases a with
  | setEvent id d =>
    obtain ⟨e, rfl⟩ := ha
    intro id' d' hd'
    simp only [OrderedMap.get?_set] at hd'
    split_ifs at hd' with hid
    · cases hd'
      exact not_traps_toFireObj hday e
    · exact h id' d' hd'
  | textDidChange searchText => exact h
  | answer i err =>
    dsimp only
    split
    · intro id d hd
      rw [events_answered] at hd
      exact h id d hd
    · exact h
  | callback j o p =>
    dsimp only
    split <;> exact h

/-- As long as every stored event was written by `toFireObj`, with any coordinates, no search
ends the program. -/
theorem encoded_run {Day : Type*} {day : Foundation.Date → Day} (h : Documented day)
    {as : List Action} (has : Runs.Each step (fun _ a => Encodes a) (start ∅) as) :
    Runs.Always step (fun s => s.trapped = false) (start ∅) as := by
  have hempty : Readable (start ∅) := nofun
  have hinv := Runs.always_of_each (I := fun s : State => Readable s ∧ s.trapped = false)
    (fun s a hs ha => ⟨hs.1.step h ha, (trapped_step_iff hs.2 a).mpr (hs.1.survives a)⟩)
    ⟨hempty, rfl⟩ has
  exact hinv.mono fun s hs => hs.2

end

open PlainKit PlainFoundation

/-- Ann's jam is stored, a search for its day finds it, and its lookups call back. -/
def foundJam : List Action :=
  [.setEvent "1" jamDoc, .textDidChange thursday, .answer 0 false,
    .callback 0 (fun _ => allFound) (0, 0), .callback 0 (fun _ => allFound) (0, 0)]

theorem encoded_run_jam :
    (Runs.run step (start ∅) foundJam).matchings.map (fun m => m.results.map (·.title)) =
        [[thursday]] ∧
      Runs.Always step (fun s => s.trapped = false) (start ∅) foundJam :=
  ⟨by decide +kernel,
    encoded_run documented ⟨⟨_, rfl⟩, trivial, trivial, trivial, trivial, trivial⟩⟩

end JamSession.SearchScreen
