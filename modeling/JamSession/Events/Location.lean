import JamSession.Events.Decoding

/-! The location of an event document. The text is split at its commas, empty parts are left
out, and the first two parts are taken without a look at how many there are. So a text with
fewer than two parts traps, and one with more, or with more commas than one, is read all the
same. The other fields of the document play no part. -/

namespace JamSession.Event

open Foundation

section

variable [UIKit] [Foundation]

/-- The format that `toFireObj` writes: two texts that `Double(_:)` accepts, and a comma. -/
def LocationText (locationn : String) (location : CLLocation) : Prop :=
  ∃ lat long, characters locationn = lat ++ "," :: long ∧ "," ∉ lat ∧ "," ∉ long ∧
    readDouble (String.join lat) = some location.latitude ∧
    readDouble (String.join long) = some location.longitude

/-- The text is parsed by its format: no trap, the lookups start with the coordinates of the
text if it has any, and else the completion is called once and nothing follows. -/
structure ParsesLocation (s : Dict) (locationn : String) : Prop where
  returns : fromFireObj s ≠ none
  reads : ∀ location, LocationText locationn location ↔
    ∃ f : Fields, f.location = location ∧ fromFireObj s = some ⟨[], [.creator f], []⟩
  rejects : (∀ location, ¬ LocationText locationn location) →
    fromFireObj s = some ⟨[], [], [.error .stringDecode]⟩

/-- Both texts are numbers. -/
def BothRead (lat long : String) : Prop := (readDouble lat).isSome ∧ (readDouble long).isSome

/-- The first two parts of the text, if it has them, are not both numbers. -/
def Unreadable (locationn : String) : Prop :=
  ∀ lat long rest, split locationn = lat :: long :: rest → ¬ BothRead lat long

/-! ### How `fromFireObj` ends -/

section Ends

variable {s : Dict} {t : Texts}

/-- Fewer than two parts: an index of the array is out of range. -/
theorem fromFireObj_short (hs : casts s = some t) (hl : (split t.locationn).length < 2) :
    fromFireObj s = none := by
  unfold fromFireObj readFields
  rw [hs]
  match hsplit : split t.locationn with
  | [] => simp only [hsplit]
  | [_] => simp only [hsplit]
  | _ :: _ :: rest =>
    rw [hsplit] at hl
    exact absurd hl (by simp)

theorem fromFireObj_unreadable {lat long : String} {rest : List String} (hs : casts s = some t)
    (hsplit : split t.locationn = lat :: long :: rest) (hr : ¬ BothRead lat long) :
    fromFireObj s = some ⟨[], [], [.error .stringDecode]⟩ := by
  unfold fromFireObj readFields
  rw [hs]
  simp only [hsplit]
  cases hlat : readDouble lat with
  | none => rfl
  | some x =>
    cases hlong : readDouble long with
    | none => rfl
    | some y => exact absurd ⟨by rw [hlat]; rfl, by rw [hlong]; rfl⟩ hr

theorem fromFireObj_read {lat long : String} {rest : List String} {x y : Double}
    (hs : casts s = some t) (hsplit : split t.locationn = lat :: long :: rest)
    (hlat : readDouble lat = some x) (hlong : readDouble long = some y) :
    ∃ f : Fields, f.location = ⟨x, y⟩ ∧ fromFireObj s = some ⟨[], [.creator f], []⟩ := by
  refine ⟨⟨t.title, dateFrom t.eventTime, ⟨x, y⟩, t.creatorId, t.description, t.attendings,
    t.instruments⟩, rfl, ?_⟩
  unfold fromFireObj readFields
  rw [hs]
  simp only [hsplit, hlat, hlong]

end Ends

/-! ### Texts with one comma -/

section Comma

omit [UIKit]

variable {locationn : String}

theorem count_comma_eq_one : (characters locationn).count "," = 1 ↔
    ∃ lat long, characters locationn = lat ++ "," :: long ∧ "," ∉ lat ∧ "," ∉ long := by
  constructor
  · intro hone
    have hmem : "," ∈ characters locationn := List.count_pos_iff.mp (by omega)
    obtain ⟨lat, long, heq, hlat⟩ := List.eq_append_cons_of_mem hmem
    refine ⟨lat, long, heq, hlat, ?_⟩
    rw [heq, List.count_append, List.count_cons_self] at hone
    exact List.count_eq_zero.mp (by omega)
  · rintro ⟨lat, long, heq, hlat, hlong⟩
    rw [heq, List.count_append, List.count_cons_self, List.count_eq_zero.mpr hlat,
      List.count_eq_zero.mpr hlong]

/-- If two parts are left of a text with one comma, they are what stands around it. -/
theorem split_eq_pair {lat long : List String} (heq : characters locationn = lat ++ "," :: long)
    (hlat : "," ∉ lat) (hlong : "," ∉ long) (hl : 2 ≤ (split locationn).length) :
    split locationn = [String.join lat, String.join long] := by
  have hsplit := split_comma heq hlat hlong
  by_cases hlat' : lat = []
  · have hle := List.length_filter_le (· ≠ []) [long]
    rw [hsplit, List.filter_cons_of_neg (by simpa using hlat'), List.length_map] at hl
    simp only [List.length_singleton] at hle
    omega
  · by_cases hlong' : long = []
    · rw [hsplit, List.filter_cons_of_pos (by simpa using hlat'),
        List.filter_cons_of_neg (by simpa using hlong')] at hl
      simp at hl
    · rw [hsplit, List.filter_cons_of_pos (by simpa using hlat'),
        List.filter_cons_of_pos (by simpa using hlong')]
      rfl

/-- The coordinates of a text of the format with two parts are read from the two parts. -/
theorem LocationText.parts {location : CLLocation} (h : LocationText locationn location)
    (hl : 2 ≤ (split locationn).length) : ∃ lat long, split locationn = [lat, long] ∧
      readDouble lat = some location.latitude ∧ readDouble long = some location.longitude := by
  obtain ⟨lat, long, heq, hlat, hlong, hx, hy⟩ := h
  exact ⟨_, _, split_eq_pair heq hlat hlong hl, hx, hy⟩

end Comma

/-! ### When the text is parsed by its format -/

section Format

variable {s : Dict} {t : Texts} {lat long : String} {rest : List String}

/-- Parts that are not numbers are turned away, and then the text is not of the format. -/
theorem parsesLocation_of_unreadable (hs : casts s = some t)
    (hsplit : split t.locationn = lat :: long :: rest) (hr : ¬ BothRead lat long) :
    ParsesLocation s t.locationn := by
  have hfire := fromFireObj_unreadable hs hsplit hr
  refine ⟨by rw [hfire]; exact nofun, fun location => iff_of_false ?_ ?_, fun _ => hfire⟩
  · intro h
    obtain ⟨a, b, hpair, hx, hy⟩ := h.parts (by rw [hsplit]; simp)
    rw [hsplit] at hpair
    cases hpair
    exact hr ⟨by rw [hx]; rfl, by rw [hy]; rfl⟩
  · rintro ⟨f, -, hf⟩
    rw [hfire] at hf
    cases hf

/-- Parts that are numbers are used, which is right if there is one comma. -/
theorem parsesLocation_iff_of_read {x y : Double} (hs : casts s = some t)
    (hsplit : split t.locationn = lat :: long :: rest) (hx : readDouble lat = some x)
    (hy : readDouble long = some y) :
    ParsesLocation s t.locationn ↔ (characters t.locationn).count "," = 1 := by
  obtain ⟨f, hf, hfire⟩ := fromFireObj_read hs hsplit hx hy
  have huse : ∀ location, (∃ f' : Fields, f'.location = location ∧
      fromFireObj s = some ⟨[], [.creator f'], []⟩) ↔ location = ⟨x, y⟩ := by
    intro location
    constructor
    · rintro ⟨f', rfl, hf'⟩
      rw [hfire] at hf'
      cases hf'
      exact hf
    · rintro rfl
      exact ⟨f, hf, hfire⟩
  have hl : 2 ≤ (split t.locationn).length := by rw [hsplit]; simp
  constructor
  · intro h
    obtain ⟨a, b, heq, ha, hb, -⟩ := (h.reads _).mpr ((huse _).mpr rfl)
    exact count_comma_eq_one.mpr ⟨a, b, heq, ha, hb⟩
  · intro hone
    obtain ⟨a, b, heq, ha, hb⟩ := count_comma_eq_one.mp hone
    have hpair := split_eq_pair heq ha hb hl
    rw [hsplit] at hpair
    cases hpair
    have htext : LocationText t.locationn ⟨x, y⟩ := ⟨a, b, heq, ha, hb, hx, hy⟩
    refine ⟨by rw [hfire]; exact nofun, fun location => ?_, fun h => absurd htext (h _)⟩
    rw [huse]
    constructor
    · intro h
      obtain ⟨lat, long, hpair, hx', hy'⟩ := h.parts hl
      rw [hsplit] at hpair
      cases hpair
      rw [hx] at hx'
      rw [hy] at hy'
      cases location
      cases hx'
      cases hy'
      rfl
    · rintro rfl
      exact htext

/-- Exactly if the text has two parts at least, and one comma or first two parts that are not
both numbers. -/
theorem parsesLocation_iff (hs : casts s = some t) :
    ParsesLocation s t.locationn ↔ 2 ≤ (split t.locationn).length ∧
      ((characters t.locationn).count "," = 1 ∨ Unreadable t.locationn) := by
  by_cases hl : (split t.locationn).length < 2
  · exact iff_of_false (fun h => h.returns (fromFireObj_short hs hl)) fun h => absurd h.1 (by omega)
  · obtain ⟨lat, long, rest, hsplit⟩ : ∃ lat long rest, split t.locationn = lat :: long :: rest := by
      match hsplit : split t.locationn with
      | [] => simp [hsplit] at hl
      | [_] => simp [hsplit] at hl
      | lat :: long :: rest => exact ⟨lat, long, rest, rfl⟩
    have hlen : 2 ≤ (split t.locationn).length := by omega
    by_cases hr : BothRead lat long
    · obtain ⟨x, hx⟩ := Option.isSome_iff_exists.mp hr.1
      obtain ⟨y, hy⟩ := Option.isSome_iff_exists.mp hr.2
      have hread : ¬ Unreadable t.locationn := fun h => h lat long rest hsplit hr
      rw [parsesLocation_iff_of_read hs hsplit hx hy]
      exact ⟨fun h => ⟨hlen, Or.inl h⟩, fun h => h.2.resolve_right hread⟩
    · refine iff_of_true (parsesLocation_of_unreadable hs hsplit hr) ⟨hlen, Or.inr ?_⟩
      intro lat' long' rest' hsplit' hr'
      rw [hsplit] at hsplit'
      cases hsplit'
      exact hr hr'

end Format

end

/-! ### An empty text and a text of three numbers -/

open PlainKit PlainFoundation

/-- Ann's jam with another text as its location. -/
def jamAt (locationn : String) : Dict := fun field =>
  if field = "location" then some (.string locationn) else jamDoc field

def jamTexts (locationn : String) : Texts :=
  ⟨thursday, thursday, locationn, "a", "bring sticks", ["a", thursday], thursday⟩

theorem casts_jamAt (locationn : String) : casts (jamAt locationn) = some (jamTexts locationn) := rfl

theorem split_threeNumbers : split "64.0,-0.5,32.0" = ["64.0", "-0.5", "32.0"] := by decide +kernel

/-- An empty text traps, and of three numbers the first two are taken. -/
theorem threeNumbers_read : ¬ ParsesLocation (jamAt "") "" ∧
    ¬ ParsesLocation (jamAt "64.0,-0.5,32.0") "64.0,-0.5,32.0" := by
  refine ⟨fun h => h.returns (fromFireObj_short (casts_jamAt "") (by decide)), fun h => ?_⟩
  obtain ⟨f, hf, hfire⟩ := fromFireObj_read (x := .finite 64) (y := .finite (.ofOdd (-1) 1 rfl))
    (casts_jamAt "64.0,-0.5,32.0") split_threeNumbers (by rfl) (by rfl)
  obtain ⟨lat, long, heq, hlat, hlong, -⟩ := (h.reads _).mpr ⟨f, hf, hfire⟩
  have hone := count_comma_eq_one.mpr ⟨lat, long, heq, hlat, hlong⟩
  exact absurd hone (by decide +kernel)

theorem parsesLocation_iff_jam : ParsesLocation (jamAt "64.0,-0.5") "64.0,-0.5" :=
  (parsesLocation_iff (casts_jamAt "64.0,-0.5")).mpr
    ⟨by decide +kernel, Or.inl (by decide +kernel)⟩

end JamSession.Event
