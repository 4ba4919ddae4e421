import JamSession.Events.Matching

/-! Saving what was read. The codec of events loses the significands of the coordinates and the
time of the day, but only once: an event with the values of a document that the program wrote
is written as this document again, and read back in full. The events that `fromFireObj` hands
on, though, have nobody attending, and a document without attendees is never reported. -/

namespace JamSession.Event

open Foundation Binade EventController

section

variable [UIKit] [Foundation]

/-- An event with the values that are read from a saved event is saved as the same document and
reads back. -/
theorem resaved_same {Day : Type*} {day : Date → Day} (h : Documented day) {e e' : Event}
    {lat long : Dyadic} (hl : e.location = ⟨.finite lat, .finite long⟩) {f : Fields}
    (hf : readFields e.toFireObj = .read f) (hback : ReadsBack e' f) :
    e'.toFireObj = e.toFireObj ∧ ∃ f', readFields e'.toFireObj = .read f' ∧ ReadsBack e' f' := by
  have hsame : e'.toFireObj = e.toFireObj := by
    rw [readFields_toFireObj h hl, Reading.read.injEq] at hf
    have htitle : e'.title = e.title := by rw [← hback.title, ← hf]
    have hdescription : e'.description = e.description := by rw [← hback.description, ← hf]
    have hinstruments : e'.instruments = e.instruments := by rw [← hback.instruments, ← hf]
    have hcreator : e'.creator.uuid = e.creator.uuid := by rw [← hback.creator, ← hf]
    have hattending : e'.attending.map (·.uuid) = e.attending.map (·.uuid) := by
      rw [← hback.attending, ← hf]
    have hlocation : e'.location = ⟨.finite (binade lat), .finite (binade long)⟩ := by
      rw [← hback.location, ← hf]
    have htime : stringFrom e'.eventTime = stringFrom e.eventTime := by
      obtain ⟨t, hread, hday⟩ := h.date_string e.eventTime
      have heq := hback.eventTime
      rw [← hf, hread] at heq
      exact h.string_day _ _ (Option.some.inj heq ▸ hday)
    have htext : locationText e'.location = locationText e.location := by
      simp only [locationText, hlocation, hl, Double.binade, binade_binade]
    funext key
    unfold toFireObj
    simp only [htitle, hdescription, hinstruments, hcreator, hattending, htime, htext]
  exact ⟨hsame, f, hsame ▸ hf, hback⟩

/-! ### Events that were reported -/

variable {s : Dict} {f : Fields} {o : Outcomes} {d : Decoding}

/-- Nobody attends an event that is reported. -/
theorem Reached.attending (h : Reached f o d) {e : Event} (he : .ok e ∈ d.completions) :
    e.attending = [] := by
  have hfirst : ∀ creator, firstReport f creator = .ok e → e.attending = [] := by
    intro creator hreport
    unfold firstReport at hreport
    split at hreport
    · cases hreport
    · cases hreport
      rfl
  cases h with
  | waiting => cases he
  | failed err hc => cases List.mem_singleton.mp he
  | silent creator hc hf => cases he
  | early creator hc hf => exact hfirst creator (List.mem_singleton.mp he).symm
  | found creator hc hf user hu => exact hfirst creator (List.mem_singleton.mp he).symm
  | twice creator hc hf err hu =>
    rcases List.mem_cons.mp he with he | he
    · exact hfirst creator he.symm
    · cases List.mem_singleton.mp he

/-- A document without attendees is never reported as an event. -/
theorem Reached.unreported (h : Reached f o d) (hf : f.attendings = []) (e : Event) :
    .ok e ∉ d.completions := by
  intro he
  cases h with
  | waiting => cases he
  | failed err hc => cases List.mem_singleton.mp he
  | silent creator hc _ => cases he
  | early creator hc hsome => exact hsome hf
  | found creator hc hsome user hu => exact hsome hf
  | twice creator hc hsome err hu => exact hsome hf

theorem attendings_of_readFields {t : Texts} (hs : casts s = some t) (hr : readFields s = .read f) :
    f.attendings = t.attendings := by
  unfold readFields at hr
  rw [hs] at hr
  dsimp only at hr
  split at hr
  · split at hr
    · cases hr
      rfl
    · cases hr
  · cases hr

/-- Nothing is reported as an event before the fields of the document are read. -/
theorem reached_of_reported {order : List ℕ} (hd : fromFireObj s = some d) {e : Event}
    (he : .ok e ∈ (Runs.run (Decoding.step o) d order).completions) :
    ∃ f, readFields s = .read f ∧ Reached f o (Runs.run (Decoding.step o) d order) := by
  have hreached : DocReached s o (Runs.run (Decoding.step o) d order) :=
    Runs.invariant (fun _ i h => h.step i) (docReached_fromFireObj hd o) order
  generalize Runs.run (Decoding.step o) d order = final at he hreached
  cases hreached with
  | failed err hr => cases List.mem_singleton.mp he
  | read f hr final hfinal => exact ⟨f, hr, hfinal⟩

/-- Whatever document an event was read from, and however the lookups went: when the event is
saved, its own document is never reported as an event again. -/
theorem reported_unreadable {order : List ℕ} (hd : fromFireObj s = some d) {e : Event}
    (he : .ok e ∈ (Runs.run (Decoding.step o) d order).completions) {d' : Decoding}
    (hd' : fromFireObj e.toFireObj = some d') (o' : Outcomes) (order' : List ℕ) (e' : Event) :
    .ok e' ∉ (Runs.run (Decoding.step o') d' order').completions := by
  intro he'
  obtain ⟨f, -, hreached⟩ := reached_of_reported hd he
  obtain ⟨f', hr', hreached'⟩ := reached_of_reported hd' he'
  have hnobody : f'.attendings = [] := by
    rw [attendings_of_readFields (casts_toFireObj e) hr', hreached.attending he]
    rfl
  exact hreached'.unreported hnobody e' he'

end

open PlainKit PlainFoundation

/-- The jam at 40 degrees north and 105 west, as it is read: at 32 and 64. -/
theorem resaved_same_jam :
    (jam ⟨.finite 32, .finite (-64)⟩).toFireObj = (jam ⟨.finite 40, .finite (-105)⟩).toFireObj ∧
      ∃ f, readFields (jam ⟨.finite 32, .finite (-64)⟩).toFireObj = .read f ∧
        ReadsBack (jam ⟨.finite 32, .finite (-64)⟩) f := by
  have hlat : binade 40 = 32 := by decide
  have hlong : binade (-105) = -64 := by decide
  refine resaved_same documented rfl (readFields_toFireObj documented rfl) ?_
  exact ⟨rfl, rfl, rfl, rfl, rfl, by rw [hlat, hlong]; rfl, rfl⟩

/-- The event that is reported for Ann's jam. -/
def reportedJam : Event :=
  ⟨thursday, (0 : ℤ), ⟨.finite 64, .finite (.ofOdd (-1) 1 neg_one_emod_two)⟩, ann, thursday,
    "bring sticks", []⟩

theorem reported_unreadable_jam : ∃ d, fromFireObj reportedJam.toFireObj = some d ∧
    ∀ e, .ok e ∉ (Runs.run (Decoding.step allFound) d [0, 0]).completions := by
  have hd : fromFireObj jamDoc = some ⟨[], [.creator jamFields], []⟩ := by
    rw [fromFireObj, readFields_jamDoc]
  have hread : .ok reportedJam ∈
      (Runs.run (Decoding.step allFound) ⟨[], [.creator jamFields], []⟩ [0]).completions :=
    List.mem_singleton.mpr rfl
  have hd' : ∃ d, fromFireObj reportedJam.toFireObj = some d :=
    ⟨_, by rw [fromFireObj, readFields_toFireObj documented rfl]⟩
  obtain ⟨d, hd'⟩ := hd'
  exact ⟨d, hd', reported_unreadable hd hread hd' allFound [0, 0]⟩

end JamSession.Event
