import JamSession.Events.Codec
import JamSession.Library.Runs

/-! `Event.fromFireObj` with its callbacks. A lookup's callback never runs before the lookup
returns, so a decode is a list of lookups that are still to call back, in any order, and the
closures share the variable `attending`. The `guard` and the completion stand inside the loop
over the attendees, whose body returns: the loop ends in its first round, before any attendee
is known. Proved for every order: the completion is called once and rightly exactly if the
lookup of the creator fails. -/

namespace JamSession.Event

section

variable [UIKit] [Foundation]

/-- A lookup that has not called back: of the creator, whose callback has the fields, or of the
attendee at an index. -/
inductive Lookup
  | creator (f : Fields)
  | attendee (i : ℕ)

/-- `completions` are the calls of the completion so far. -/
structure Decoding where
  attending : List User
  lookups : List Lookup
  completions : List (Except FireError Event)

namespace Decoding

def complete (d : Decoding) (result : Except FireError Event) : Decoding :=
  { d with completions := d.completions ++ [result] }

def lookUp (d : Decoding) (l : Lookup) : Decoding := { d with lookups := d.lookups ++ [l] }

/-- The loop over the attendees. Each way through its body returns from the callback. -/
def forAttendings (d : Decoding) (f : Fields) (creator : User) : Decoding :=
  match f.attendings with
  | [] => d
  | _ :: _ =>
    let d := d.lookUp (.attendee 0)
    match f.time with
    | none => d.complete (.error .incorrectFormat)
    | some time => d.complete (.ok
        ⟨f.title, time, f.location, creator, f.instruments, f.description, d.attending⟩)

/-- The callbacks of the two kinds of lookups. -/
def callback (d : Decoding) : Lookup → Except ManErr User → Decoding
  | .creator f, .ok mainUser => d.forAttendings f mainUser
  | .creator _, .error err => d.complete (.error (.fat (.lookup err)))
  | .attendee _, .ok user => { d with attending := d.attending ++ [user] }
  | .attendee _, .error err => d.complete (.error (.fat (.lookup err)))

end Decoding

/-- What the lookups of a document answer, those that are never started included. -/
structure Outcomes where
  creator : Except ManErr User
  attendee : ℕ → Except ManErr User

def Outcomes.of (o : Outcomes) : Lookup → Except ManErr User
  | .creator _ => o.creator
  | .attendee i => o.attendee i

/-- `fromFireObj` up to where it returns; `none` if it traps. -/
def fromFireObj (s : Dict) : Option Decoding :=
  match readFields s with
  | .failed err => some ⟨[], [], [.error err]⟩
  | .trapped => none
  | .read f => some ⟨[], [.creator f], []⟩

/-- The lookup at index `i` calls back. -/
def Decoding.step (o : Outcomes) (d : Decoding) (i : ℕ) : Decoding :=
  match d.lookups[i]? with
  | some l => { d with lookups := d.lookups.eraseIdx i }.callback l (o.of l)
  | none => d

/-! ### The states of a decode -/

/-- What the completion is told when the creator is found and there are attendees. -/
def firstReport (f : Fields) (creator : User) : Except FireError Event :=
  match f.time with
  | none => .error .incorrectFormat
  | some time => .ok ⟨f.title, time, f.location, creator, f.instruments, f.description, []⟩

/-- The states of a decode whose fields were read. -/
inductive Reached (f : Fields) (o : Outcomes) : Decoding → Prop
  | waiting : Reached f o ⟨[], [.creator f], []⟩
  | failed (err : ManErr) (hc : o.creator = .error err) :
      Reached f o ⟨[], [], [.error (.fat (.lookup err))]⟩
  | silent (creator : User) (hc : o.creator = .ok creator) (hf : f.attendings = []) :
      Reached f o ⟨[], [], []⟩
  | early (creator : User) (hc : o.creator = .ok creator) (hf : f.attendings ≠ []) :
      Reached f o ⟨[], [.attendee 0], [firstReport f creator]⟩
  | found (creator : User) (hc : o.creator = .ok creator) (hf : f.attendings ≠ []) (user : User)
      (hu : o.attendee 0 = .ok user) : Reached f o ⟨[user], [], [firstReport f creator]⟩
  | twice (creator : User) (hc : o.creator = .ok creator) (hf : f.attendings ≠ []) (err : ManErr)
      (hu : o.attendee 0 = .error err) :
      Reached f o ⟨[], [], [firstReport f creator, .error (.fat (.lookup err))]⟩

theorem forAttendings_eq {f : Fields} {creator : User} (hf : f.attendings ≠ []) :
    Decoding.forAttendings ⟨[], [], []⟩ f creator = ⟨[], [.attendee 0], [firstReport f creator]⟩ := by
  unfold Decoding.forAttendings firstReport
  cases ha : f.attendings with
  | nil => exact absurd ha hf
  | cons uuid uuids => cases f.time <;> rfl

theorem Reached.step {f : Fields} {o : Outcomes} {d : Decoding} (h : Reached f o d) (i : ℕ) :
    Reached f o (d.step o i) := by
  cases h with
  | waiting =>
    cases i with
    | zero =>
      show Reached f o (Decoding.callback ⟨[], [], []⟩ (.creator f) o.creator)
      cases hc : o.creator with
      | error err => exact .failed err hc
      | ok creator =>
        show Reached f o (Decoding.forAttendings ⟨[], [], []⟩ f creator)
        by_cases hf : f.attendings = []
        · rw [Decoding.forAttendings, hf]
          exact .silent creator hc hf
        · rw [forAttendings_eq hf]
          exact .early creator hc hf
    | succ i => exact .waiting
  | failed err hc => exact .failed err hc
  | silent creator hc hf => exact .silent creator hc hf
  | early creator hc hf =>
    cases i with
    | zero =>
      show Reached f o (Decoding.callback ⟨[], [], [firstReport f creator]⟩ (.attendee 0) (o.attendee 0))
      cases hu : o.attendee 0 with
      | error err => exact .twice creator hc hf err hu
      | ok user => exact .found creator hc hf user hu
    | succ i => exact .early creator hc hf
  | found creator hc hf user hu => exact .found creator hc hf user hu
  | twice creator hc hf err hu => exact .twice creator hc hf err hu

theorem Reached.run {f : Fields} {o : Outcomes} (order : List ℕ) :
    Reached f o (Runs.run (Decoding.step o) ⟨[], [.creator f], []⟩ order) :=
  Runs.invariant (fun _ i h => h.step i) .waiting order

/-- A decode can always be finished, by two callbacks at most. -/
theorem finishes (f : Fields) (o : Outcomes) :
    (Runs.run (Decoding.step o) ⟨[], [.creator f], []⟩ [0, 0]).lookups = [] := by
  show ((Decoding.callback ⟨[], [], []⟩ (.creator f) o.creator).step o 0).lookups = []
  cases o.creator with
  | error err => rfl
  | ok creator =>
    show ((Decoding.forAttendings ⟨[], [], []⟩ f creator).step o 0).lookups = []
    by_cases hf : f.attendings = []
    · rw [Decoding.forAttendings, hf]
      rfl
    · rw [forAttendings_eq hf]
      show (Decoding.callback ⟨[], [], [_]⟩ (.attendee 0) (o.attendee 0)).lookups = []
      cases o.attendee 0 <;> rfl

/-! ### One report -/

def Outcomes.AllFound (o : Outcomes) (attendings : List String) : Prop :=
  (∃ u, o.creator = .ok u) ∧ ∀ i < attendings.length, ∃ u, o.attendee i = .ok u

/-- The completion was called once, with an event exactly if all lookups succeeded, and the
event is attended by the users found, in the document's order. -/
def ReportsOnce (attendings : List String) (o : Outcomes)
    (completions : List (Except FireError Event)) : Prop :=
  ∃ result, completions = [result] ∧ ((∃ e, result = .ok e) ↔ o.AllFound attendings) ∧
    ∀ e, result = .ok e → e.attending.map Except.ok = (List.range attendings.length).map o.attendee

/-- For every document that parses, all outcomes and every order of the callbacks: a finished
decode has reported once and completely exactly if the lookup of the creator fails. -/
theorem reportsOnce_iff {s : Dict} {f : Fields} {time : Foundation.Date}
    (hs : readFields s = .read f) (htime : f.time = some time) {d : Decoding}
    (hd : fromFireObj s = some d) (o : Outcomes) {order : List ℕ}
    (hdone : (Runs.run (Decoding.step o) d order).lookups = []) :
    ReportsOnce f.attendings o (Runs.run (Decoding.step o) d order).completions ↔
      ∃ err, o.creator = .error err := by
  have hstart : d = ⟨[], [.creator f], []⟩ := by
    rw [fromFireObj, hs] at hd
    exact (Option.some.inj hd).symm
  subst hstart
  have hreport : ∀ creator, ∃ e, firstReport f creator = .ok e ∧ e.attending = [] := by
    intro creator
    rw [firstReport, htime]
    exact ⟨_, rfl, rfl⟩
  -- with the creator found, no attendee can be in the report
  have hempty : ∀ creator, o.creator = .ok creator → f.attendings ≠ [] →
      ¬ ReportsOnce f.attendings o [firstReport f creator] := by
    rintro creator - hf ⟨result, hone, -, hattending⟩
    obtain ⟨e, he, hnone⟩ := hreport creator
    have hlist := hattending e ((List.singleton_injective hone).symm.trans he)
    rw [hnone] at hlist
    have hlength := congrArg List.length hlist
    simp only [List.map_nil, List.length_nil, List.length_map, List.length_range] at hlength
    exact hf (List.length_eq_zero_iff.mp hlength.symm)
  have hfound : ∀ creator, o.creator = .ok creator → ¬ ∃ err, o.creator = .error err := by
    rintro creator hc ⟨err, he⟩
    rw [hc] at he
    cases he
  have hreached := Reached.run (f := f) (o := o) order
  generalize Runs.run (Decoding.step o) ⟨[], [.creator f], []⟩ order = final at hdone hreached
  cases hreached with
  | waiting => cases hdone
  | failed err hc =>
    have hnoEvent : ∀ e : Event, Except.error (FireError.fat (BackendError.lookup err)) ≠ .ok e := by
      simp
    refine iff_of_true ⟨_, rfl, ?_, fun e he => absurd he (hnoEvent e)⟩ ⟨err, hc⟩
    refine iff_of_false (fun ⟨e, he⟩ => hnoEvent e he) fun hall => ?_
    obtain ⟨u, hu⟩ := hall.1
    rw [hc] at hu
    cases hu
  | silent creator hc hf =>
    refine iff_of_false ?_ (hfound creator hc)
    rintro ⟨result, hone, -⟩
    cases hone
  | early creator hc hf => cases hdone
  | found creator hc hf user hu => exact iff_of_false (hempty creator hc hf) (hfound creator hc)
  | twice creator hc hf err hu =>
    refine iff_of_false ?_ (hfound creator hc)
    rintro ⟨result, hone, -⟩
    cases hone

end

open PlainKit PlainFoundation

/-! ### A jam that a search can find -/

theorem neg_one_emod_two : (-1 : ℤ) % 2 = 1 := rfl

/-- A search compares one text with the title, the time, the instruments and the attending uuids,
so an event that it finds has the text of its day in all of them. -/
def thursday : String := "Thursday, January 1, 1970"

def dan : User :=
  .init "dan" UIKit.blank "locatioin" "bio" "instrument" "seleccted experience" thursday [] []

/-- Ann's jam as it is stored; she and Dan are attending. -/
def jamDoc : Dict := Event.toFireObj
  ⟨thursday, (0 : ℤ), ⟨.finite 64, .finite (.ofOdd (-1) 1 neg_one_emod_two)⟩, ann, thursday,
    "bring sticks", [ann, dan]⟩

def jamFields : Fields :=
  ⟨thursday, some (0 : ℤ), ⟨.finite 64, .finite (.ofOdd (-1) 1 neg_one_emod_two)⟩, "a",
    "bring sticks", ["a", thursday], thursday⟩

/-- The creator and both attendees are found. -/
def allFound : Outcomes := ⟨.ok ann, fun i => .ok (if i = 0 then ann else dan)⟩

theorem readFields_jamDoc : readFields jamDoc = .read jamFields := by
  rw [jamDoc, readFields_toFireObj documented rfl]
  rfl

/-- All lookups succeed, and the event is reported before an attendee is known. -/
theorem jamDoc_unattended : fromFireObj jamDoc = some ⟨[], [.creator jamFields], []⟩ ∧
    ¬ ReportsOnce jamFields.attendings allFound
      (Runs.run (Decoding.step allFound) ⟨[], [.creator jamFields], []⟩ [0, 0]).completions := by
  refine ⟨by rw [fromFireObj, readFields_jamDoc], ?_⟩
  rintro ⟨result, hone, -, hattending⟩
  have hresult : result = firstReport jamFields ann := (List.singleton_injective hone).symm
  cases hattending _ hresult

theorem reportsOnce_iff_jamDoc : ReportsOnce jamFields.attendings
    ⟨.error .noSuchUser, allFound.attendee⟩
    (Runs.run (Decoding.step ⟨.error .noSuchUser, allFound.attendee⟩)
      ⟨[], [.creator jamFields], []⟩ [0]).completions :=
  (reportsOnce_iff (s := jamDoc) readFields_jamDoc rfl (by rw [fromFireObj, readFields_jamDoc])
    _ rfl).mpr ⟨_, rfl⟩

end JamSession.Event
