import Mathlib.Data.List.Forall2
import JamSession.Events.Decoding

/-! `EventController.getAllEventsMatching`. The loop over the answer starts one decode for each
document; their successes are appended to `results`, whose value is handed to the completion
when the loop is done. A decode succeeds in a callback, so never before that. Proved for every
answer, all outcomes and every order of the callbacks: what the completion gets is right
exactly if no document of the answer traps and none decodes. -/

namespace JamSession.EventController

open Event

section

variable [UIKit] [Foundation]

/-- The events among the calls of a decode's completion. -/
def successes (completions : List (Except FireError Event)) : List Event :=
  completions.filterMap Except.toOption

/-- The variable `results`, the decodes in the order of their documents, and the calls of the
search's completion so far. -/
structure Matching where
  results : List Event
  decodings : List Decoding
  completions : List (Except FireError (List Event))

/-- The four conditions of the query. -/
def whereFields (term : String) (d : Dict) : Bool :=
  d.string "title" = some term && d.string "eventTime" = some term &&
    d.string "instruments" = some term &&
    match d "attending" with
    | some (.array vs) => vs.any fun v => v.asString = some term
    | _ => false

def query (term : String) (events : OrderedMap String Dict) : List Dict :=
  (events.select fun _ d => whereFields term d).map Prod.snd

/-- The callback of the query, up to where it returns; `none` if a decode traps. -/
def getAllEventsMatching : Option (List Dict) → Option Matching
  | none => some ⟨[], [], [.error (.fat .query)]⟩
  | some documents =>
    if documents.isEmpty then some ⟨[], [], [.error .noData]⟩
    else do
      let decodings ← documents.mapM fromFireObj
      let results := decodings.flatMap fun d => successes d.completions
      return ⟨results, decodings, [.ok results]⟩

/-- The lookup at index `p.2` of the document at index `p.1` calls back. -/
def step (o : ℕ → Outcomes) (m : Matching) (p : ℕ × ℕ) : Matching :=
  match m.decodings[p.1]? with
  | some d =>
    let d' := d.step (o p.1) p.2
    { m with
      results := m.results ++ successes (d'.completions.drop d.completions.length)
      decodings := m.decodings.set p.1 d' }
  | none => m

/-! ### The states of a search -/

/-- The states of the decode of a document. -/
inductive DocReached (doc : Dict) (o : Outcomes) : Decoding → Prop
  | failed (err : FireError) (h : readFields doc = .failed err) :
      DocReached doc o ⟨[], [], [.error err]⟩
  | read (f : Fields) (h : readFields doc = .read f) (d : Decoding) (hd : Reached f o d) :
      DocReached doc o d

theorem docReached_fromFireObj {doc : Dict} {d : Decoding} (h : fromFireObj doc = some d)
    (o : Outcomes) : DocReached doc o d := by
  unfold fromFireObj at h
  split at h
  · cases h
    exact .failed _ ‹_›
  · cases h
  · cases h
    exact .read _ ‹_› _ .waiting

theorem DocReached.step {doc : Dict} {o : Outcomes} {d : Decoding} (h : DocReached doc o d)
    (i : ℕ) : DocReached doc o (d.step o i) := by
  cases h with
  | failed err hf => exact .failed err hf
  | read f hf d hd => exact .read f hf _ (hd.step i)

/-- The document decodes: its fields parse, the date too, it has attendees and its creator is
found. -/
def Decodes (doc : Dict) (o : Outcomes) : Prop :=
  ∃ f creator, readFields doc = .read f ∧ f.time.isSome ∧ f.attendings ≠ [] ∧
    o.creator = .ok creator

theorem decodes_iff {doc : Dict} {o : Outcomes} {f : Fields} (h : readFields doc = .read f) :
    Decodes doc o ↔ f.time.isSome ∧ f.attendings ≠ [] ∧ ∃ creator, o.creator = .ok creator := by
  constructor
  · rintro ⟨f', creator, hf', htime, hattendings, hc⟩
    cases h.symm.trans hf'
    exact ⟨htime, hattendings, creator, hc⟩
  · rintro ⟨htime, hattendings, creator, hc⟩
    exact ⟨f, creator, h, htime, hattendings, hc⟩

theorem successes_error (err : FireError) : successes [.error err] = [] := rfl

theorem successes_firstReport (f : Fields) (creator : User) {later : List (Except FireError Event)}
    (hlater : successes later = []) :
    (f.time.isSome → ∃ e, successes (firstReport f creator :: later) = [e]) ∧
      (¬ f.time.isSome → successes (firstReport f creator :: later) = []) := by
  unfold successes at hlater ⊢
  unfold firstReport
  cases f.time with
  | none =>
    refine ⟨nofun, fun _ => ?_⟩
    rw [List.filterMap_cons_none rfl, hlater]
  | some time =>
    exact ⟨fun _ => ⟨_, congrArg (List.cons _) hlater⟩, fun h => absurd rfl h⟩

/-- A finished decode has reported one event if the document decodes, and none otherwise. -/
theorem DocReached.successes_done {doc : Dict} {o : Outcomes} {d : Decoding}
    (h : DocReached doc o d) (hdone : d.lookups = []) :
    (Decodes doc o → ∃ e, successes d.completions = [e]) ∧
      (¬ Decodes doc o → successes d.completions = []) := by
  cases h with
  | failed err hf =>
    refine ⟨?_, fun _ => rfl⟩
    rintro ⟨f, creator, hread, -⟩
    rw [hf] at hread
    cases hread
  | read f hf d hd =>
    rw [decodes_iff hf]
    cases hd with
    | waiting => cases hdone
    | failed err hc =>
      refine ⟨?_, fun _ => rfl⟩
      rintro ⟨-, -, creator, hfound⟩
      rw [hc] at hfound
      cases hfound
    | silent creator hc hnobody => exact ⟨fun h => absurd hnobody h.2.1, fun _ => rfl⟩
    | early creator hc hsome => cases hdone
    | found creator hc hsome user hu =>
      have hlater : successes ([] : List (Except FireError Event)) = [] := rfl
      obtain ⟨hone, hnone⟩ := successes_firstReport f creator hlater
      exact ⟨fun h => hone h.1, fun h => hnone fun ht => h ⟨ht, hsome, creator, hc⟩⟩
    | twice creator hc hsome err hu =>
      obtain ⟨hone, hnone⟩ := successes_firstReport f creator
        (successes_error (.fat (.lookup err)))
      exact ⟨fun h => hone h.1, fun h => hnone fun ht => h ⟨ht, hsome, creator, hc⟩⟩

/-! ### Runs of a search -/

theorem forall₂_of_mapM {docs : List Dict} {ds : List Decoding}
    (h : docs.mapM fromFireObj = some ds) :
    List.Forall₂ (fun doc d => fromFireObj doc = some d) docs ds := by
  induction docs generalizing ds with
  | nil =>
    cases h
    exact .nil
  | cons doc docs ih =>
    simp only [List.mapM_cons, Option.bind_eq_bind, Option.bind_eq_some_iff, Option.pure_def,
      Option.some.injEq] at h
    obtain ⟨d, hd, ds, hds, rfl⟩ := h
    exact .cons hd (ih hds)

theorem mapM_isSome {docs : List Dict} (h : ∀ doc ∈ docs, readFields doc ≠ .trapped) :
    ∃ ds, docs.mapM fromFireObj = some ds := by
  induction docs with
  | nil => exact ⟨[], rfl⟩
  | cons doc docs ih =>
    obtain ⟨ds, hds⟩ := ih fun doc' hdoc' => h doc' (List.mem_cons_of_mem doc hdoc')
    have hd : ∃ d, fromFireObj doc = some d := by
      unfold fromFireObj
      cases hr : readFields doc with
      | failed err => exact ⟨_, rfl⟩
      | trapped => exact absurd hr (h doc List.mem_cons_self)
      | read f => exact ⟨_, rfl⟩
    obtain ⟨d, hd⟩ := hd
    exact ⟨d :: ds, by simp [List.mapM_cons, hd, hds]⟩

/-- The decodes belong to the documents, and the completion was called when they were started. -/
structure Started (docs : List Dict) (o : ℕ → Outcomes) (m : Matching) : Prop where
  length : m.decodings.length = docs.length
  decodings : ∀ i doc d, docs[i]? = some doc → m.decodings[i]? = some d → DocReached doc (o i) d
  completions : m.completions = [if docs = [] then .error .noData else .ok []]

theorem Started.step {docs : List Dict} {o : ℕ → Outcomes} {m : Matching} (h : Started docs o m)
    (p : ℕ × ℕ) : Started docs o (step o m p) := by
  unfold EventController.step
  cases hd : m.decodings[p.1]? with
  | none => exact h
  | some d =>
    refine ⟨by simp [h.length], fun i doc d' hdoc hd' => ?_, h.completions⟩
    simp only [List.getElem?_set] at hd'
    split_ifs at hd' with hi hlt
    · subst hi
      rw [← Option.some.inj hd']
      exact (h.decodings _ doc d hdoc hd).step _
    · exact h.decodings i doc d' hdoc hd'

theorem fromFireObj_successes {doc : Dict} {d : Decoding} (h : fromFireObj doc = some d) :
    successes d.completions = [] := by
  unfold fromFireObj at h
  split at h <;> cases h <;> rfl

theorem started {docs : List Dict} {m : Matching} (h : getAllEventsMatching (some docs) = some m)
    (o : ℕ → Outcomes) : Started docs o m := by
  unfold getAllEventsMatching at h
  cases docs with
  | nil =>
    cases h
    exact ⟨rfl, nofun, rfl⟩
  | cons doc docs =>
    simp only [List.isEmpty_cons, Bool.false_eq_true, if_false, Option.bind_eq_bind,
      Option.bind_eq_some_iff, Option.pure_def, Option.some.injEq] at h
    obtain ⟨ds, hds, rfl⟩ := h
    have hall := forall₂_of_mapM hds
    refine ⟨hall.length_eq.symm, fun i doc' d hdoc hd => ?_, ?_⟩
    · obtain ⟨hi, rfl⟩ := List.getElem?_eq_some_iff.mp hdoc
      obtain ⟨hi', rfl⟩ := List.getElem?_eq_some_iff.mp hd
      exact docReached_fromFireObj (List.forall₂_iff_get.mp hall |>.2 i hi hi') (o i)
    · have hnone : (ds.flatMap fun d => successes d.completions) = [] := by
        rw [List.flatMap_eq_nil_iff]
        intro d hd
        obtain ⟨i, hi, rfl⟩ := List.getElem_of_mem hd
        have hi' : i < (doc :: docs).length := by
          rw [hall.length_eq]
          exact hi
        exact fromFireObj_successes (List.forall₂_iff_get.mp hall |>.2 i hi' hi)
      rw [hnone, if_neg (List.cons_ne_nil doc docs)]

/-- The search goes on exactly if no document traps. -/
theorem getAllEventsMatching_isSome {docs : List Dict} :
    (∃ m, getAllEventsMatching (some docs) = some m) ↔ ∀ doc ∈ docs, readFields doc ≠ .trapped := by
  cases docs with
  | nil => exact iff_of_true ⟨_, rfl⟩ nofun
  | cons doc docs =>
    simp only [getAllEventsMatching, List.isEmpty_cons, Bool.false_eq_true, if_false,
      Option.bind_eq_bind, Option.pure_def]
    constructor
    · rintro ⟨m, hm⟩ doc' hdoc' htrapped
      obtain ⟨ds, hds, -⟩ := Option.bind_eq_some_iff.mp hm
      obtain ⟨i, hi, rfl⟩ := List.getElem_of_mem hdoc'
      have hall := forall₂_of_mapM hds
      have hd := (List.forall₂_iff_get.mp hall).2 i hi (hall.length_eq ▸ hi)
      rw [List.get_eq_getElem, fromFireObj, htrapped] at hd
      cases hd
    · intro h
      obtain ⟨ds, hds⟩ := mapM_isSome h
      exact ⟨_, by rw [hds]; rfl⟩

/-- When everything has called back, there is an event to hand on exactly if a document
decodes. -/
theorem Started.flatMap_eq_nil {docs : List Dict} {o : ℕ → Outcomes} {m : Matching}
    (h : Started docs o m) (hdone : ∀ d ∈ m.decodings, d.lookups = []) :
    (m.decodings.flatMap fun d => successes d.completions) = [] ↔
      ∀ i doc, docs[i]? = some doc → ¬ Decodes doc (o i) := by
  rw [List.flatMap_eq_nil_iff]
  constructor
  · intro hnone i doc hdoc hdecodes
    obtain ⟨hi, -⟩ := List.getElem?_eq_some_iff.mp hdoc
    have hd := List.getElem?_eq_getElem (h.length ▸ hi)
    have hmem := List.mem_of_getElem? hd
    obtain ⟨e, he⟩ := ((h.decodings i doc _ hdoc hd).successes_done (hdone _ hmem)).1 hdecodes
    rw [hnone _ hmem] at he
    cases he
  · intro hall d hmem
    obtain ⟨i, hi, rfl⟩ := List.getElem_of_mem hmem
    have hdoc := List.getElem?_eq_getElem (h.length ▸ hi)
    exact ((h.decodings i _ _ hdoc (List.getElem?_eq_getElem hi)).successes_done
      (hdone _ hmem)).2 (hall i _ hdoc)

/-! ### What the completion gets -/

/-- The events of the documents that decoded, in the documents' order; of an empty answer, that
there is no data. -/
def expected (docs : List Dict) (m : Matching) : Except FireError (List Event) :=
  if docs = [] then .error .noData
  else .ok (m.decodings.flatMap fun d => successes d.completions)

/-- The completion is called once, with what is expected. -/
def DeliversAll (docs : List Dict) (o : ℕ → Outcomes) (order : List (ℕ × ℕ)) : Prop :=
  ∃ m, getAllEventsMatching (some docs) = some m ∧
    (Runs.run (step o) m order).completions = [expected docs (Runs.run (step o) m order)]

/-- No lookup is outstanding after the callbacks of the order. -/
def Finishes (docs : List Dict) (o : ℕ → Outcomes) (order : List (ℕ × ℕ)) : Prop :=
  ∀ m, getAllEventsMatching (some docs) = some m →
    ∀ d ∈ (Runs.run (step o) m order).decodings, d.lookups = []

/-- For every answer of the query, all outcomes and every order of the callbacks: the
completion gets the events of the documents exactly if no document traps and there are none. -/
theorem deliversAll_iff (docs : List Dict) (o : ℕ → Outcomes) {order : List (ℕ × ℕ)}
    (hdone : Finishes docs o order) : DeliversAll docs o order ↔
      ∀ i doc, docs[i]? = some doc → readFields doc ≠ .trapped ∧ ¬ Decodes doc (o i) := by
  have hrun : ∀ m, getAllEventsMatching (some docs) = some m →
      Started docs o (Runs.run (step o) m order) := fun m hm =>
    Runs.invariant (fun _ p h => h.step p) (started hm o) order
  constructor
  · rintro ⟨m, hm, hexpected⟩ i doc hdoc
    have hmem := List.mem_of_getElem? hdoc
    have hne : docs ≠ [] := List.ne_nil_of_mem hmem
    rw [(hrun m hm).completions, expected, if_neg hne, if_neg hne] at hexpected
    have hnone := Except.ok.inj (List.singleton_injective hexpected)
    exact ⟨getAllEventsMatching_isSome.mp ⟨m, hm⟩ doc hmem,
      ((hrun m hm).flatMap_eq_nil (hdone m hm)).mp hnone.symm i doc hdoc⟩
  · intro h
    have htrapped : ∀ doc ∈ docs, readFields doc ≠ .trapped := by
      intro doc hdoc
      obtain ⟨i, hi⟩ := List.getElem?_of_mem hdoc
      exact (h i doc hi).1
    obtain ⟨m, hm⟩ := getAllEventsMatching_isSome.mpr htrapped
    have hnone := ((hrun m hm).flatMap_eq_nil (hdone m hm)).mpr fun i doc hdoc => (h i doc hdoc).2
    exact ⟨m, hm, by rw [(hrun m hm).completions, expected, hnone]⟩

end

open PlainKit PlainFoundation

/-! ### A search that finds Ann's jam -/

/-- The query for the day finds the jam. -/
theorem whereFields_jamDoc : whereFields thursday jamDoc = true := by decide +kernel

theorem getAllEventsMatching_jamDoc : getAllEventsMatching (some [jamDoc]) =
    some ⟨[], [⟨[], [.creator jamFields], []⟩], [.ok []]⟩ := by
  simp [getAllEventsMatching, fromFireObj, readFields_jamDoc, successes]

/-- The jam is found and decodes, and the completion gets an empty list. -/
theorem jamDoc_undelivered : whereFields thursday jamDoc = true ∧
    Finishes [jamDoc] (fun _ => allFound) [(0, 0), (0, 0)] ∧
    ¬ DeliversAll [jamDoc] (fun _ => allFound) [(0, 0), (0, 0)] := by
  refine ⟨whereFields_jamDoc, fun m hm => ?_, ?_⟩
  · rw [getAllEventsMatching_jamDoc] at hm
    cases hm
    exact List.forall_mem_singleton.mpr rfl
  · rintro ⟨m, hm, hexpected⟩
    rw [getAllEventsMatching_jamDoc] at hm
    cases hm
    cases hexpected

/-- The jam with no text for its location. -/
def nowhere : Dict := fun field => if field = "location" then some (.other 0) else jamDoc field

/-- Of a document without a location and one whose creator is gone nothing is expected. -/
theorem deliversAll_iff_nothing : (∀ d ∈ [nowhere, jamDoc], whereFields thursday d = true) ∧
    DeliversAll [nowhere, jamDoc] (fun _ => ⟨.error .noSuchUser, allFound.attendee⟩) [(1, 0)] := by
  have hstart : getAllEventsMatching (some [nowhere, jamDoc]) = some
      ⟨[], [⟨[], [], [.error .incorrectFormat]⟩, ⟨[], [.creator jamFields], []⟩], [.ok []]⟩ := by
    have hnone : readFields nowhere = .failed .incorrectFormat := rfl
    simp [getAllEventsMatching, fromFireObj, readFields_jamDoc, hnone, successes, Except.toOption]
  refine ⟨by decide +kernel, (deliversAll_iff _ _ fun m hm => ?_).mpr fun i doc hdoc => ⟨?_, ?_⟩⟩
  · rw [hstart] at hm
    cases hm
    exact List.forall_mem_cons.mpr ⟨rfl, List.forall_mem_singleton.mpr rfl⟩
  · exact getAllEventsMatching_isSome.mp ⟨_, hstart⟩ doc (List.mem_of_getElem? hdoc)
  · rintro ⟨f, creator, -, -, -, hc⟩
    cases hc

end JamSession.EventController
