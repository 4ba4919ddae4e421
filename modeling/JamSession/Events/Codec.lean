import JamSession.Firestore.PlainKit
import JamSession.Models.Event
import JamSession.Models.PlainFoundation

/-! Encoding an event and reading it back. The texts survive, and so do the creator and the
attending uuids; a coordinate is stored as its binade and the time as the text of its day. So an
event comes back exactly if its coordinates are zero or powers of two and its time is the one
that stands for its day. -/

namespace JamSession

open Foundation Binade

section Texts

theorem join_singletons (cs : List Char) : String.join (cs.map String.singleton) = String.ofList cs := by
  induction cs with
  | nil => rfl
  | cons c cs ih =>
    rw [List.map_cons, String.join_cons, ih]
    simp

variable [Foundation]

/-- A text with one comma is split into what stands before and after it, if anything does. -/
theorem split_comma {s : String} {a b : List String} (hs : characters s = a ++ "," :: b)
    (ha : "," ∉ a) (hb : "," ∉ b) : split s = ([a, b].filter (· ≠ [])).map String.join := by
  rw [split, hs, List.splitOn_append_cons_self_of_not_mem ha, List.splitOn_eq_singleton hb]

variable {Day : Type*} {day : Date → Day}

/-- Two printed doubles with a comma between them are split into the two. -/
theorem Documented.split_print (h : Documented day) (x y : Double) :
    split (printDouble x ++ "," ++ printDouble y) = [printDouble x, printDouble y] := by
  have hcomma : Printable ',' := by decide
  have hchars : ∀ c ∈ (printDouble x ++ "," ++ printDouble y).toList, Printable c := by
    intro c hc
    simp only [String.toList_append, List.mem_append] at hc
    rcases hc with (hc | hc) | hc
    · exact (h.print_chars x c hc).1
    · rw [List.mem_singleton.mp hc]
      exact hcomma
    · exact (h.print_chars y c hc).1
  have hmap : characters (printDouble x ++ "," ++ printDouble y) =
      (printDouble x).toList.map String.singleton ++
        "," :: (printDouble y).toList.map String.singleton := by
    rw [h.chars_ascii _ hchars, String.toList_append, String.toList_append, List.map_append,
      List.map_append, List.append_assoc]
    rfl
  have hfree : ∀ z, "," ∉ (printDouble z).toList.map String.singleton := by
    intro z hz
    obtain ⟨c, hc, hsingle⟩ := List.mem_map.mp hz
    have hlist := congrArg String.toList hsingle
    rw [String.toList_singleton] at hlist
    exact (h.print_chars z c hc).2 (List.singleton_injective hlist)
  have hne : ∀ z, (printDouble z).toList.map String.singleton ≠ [] := by
    intro z hz
    exact h.print_ne z (by simpa using hz)
  have hjoin : ∀ z, String.join ((printDouble z).toList.map String.singleton) = printDouble z := by
    intro z
    rw [join_singletons, String.ofList_toList]
  rw [split_comma hmap (hfree x) (hfree y), List.filter_cons_of_pos (by simpa using hne x),
    List.filter_cons_of_pos (by simpa using hne y)]
  simp only [List.filter_nil, List.map_cons, List.map_nil, hjoin]

/-! ### Times that stand for their days -/

/-- The instant that is read from the text of every time of its day. -/
def Represents (day : Date → Day) (t : Date) : Prop :=
  ∀ t', day t' = day t → dateFrom (stringFrom t') = some t

/-- Each day has exactly one such instant. -/
theorem Documented.existsUnique_represents (h : Documented day) (t : Date) :
    ∃! t', day t' = day t ∧ Represents day t' := by
  obtain ⟨t', hread, hday⟩ := h.date_string t
  refine ⟨t', ⟨hday, fun u hu => ?_⟩, ?_⟩
  · rw [h.string_day u t (hu.trans hday), hread]
  · rintro u ⟨hu, hrep⟩
    have hread' := hrep t hu.symm
    rw [hread] at hread'
    exact (Option.some.inj hread').symm

theorem Documented.represents_iff (h : Documented day) (t : Date) :
    Represents day t ↔ dateFrom (stringFrom t) = some t := by
  constructor
  · intro hrep
    exact hrep t rfl
  · intro hread t' ht'
    rw [h.string_day t' t ht', hread]

end Texts

/-! ### Reading an encoded event -/

section Decode

variable [UIKit] [Foundation] {Day : Type*} {day : Date → Day}

namespace Event

/-- What is read from the document of an event with finite coordinates. -/
theorem readFields_toFireObj (h : Documented day) {e : Event} {lat long : Dyadic}
    (hl : e.location = ⟨.finite lat, .finite long⟩) : readFields e.toFireObj = .read
    ⟨e.title, dateFrom (stringFrom e.eventTime), ⟨.finite (binade lat), .finite (binade long)⟩,
      e.creator.uuid, e.description, e.attending.map (·.uuid), e.instruments⟩ := by
  unfold readFields
  rw [casts_toFireObj]
  simp only [locationText, hl, Double.binade, h.split_print, h.read_print]

/-- The values that `fromFireObj` reads are the event's own. -/
structure ReadsBack (e : Event) (f : Fields) : Prop where
  title : f.title = e.title
  description : f.description = e.description
  instruments : f.instruments = e.instruments
  creator : f.creatorId = e.creator.uuid
  attending : f.attendings = e.attending.map (·.uuid)
  location : f.location = e.location
  eventTime : f.time = some e.eventTime

end Event

open Event

/-- A coordinate is read without its significand. -/
theorem read_significand (h : Documented day) {e : Event} {lat long : Dyadic}
    (hl : e.location = ⟨.finite lat, .finite long⟩) {f : Fields}
    (hf : readFields e.toFireObj = .read f) :
    ∃ lat' long', f.location = ⟨.finite lat', .finite long'⟩ ∧
      (lat ≠ 0 → ∃ c : ℚ, 1 ≤ c ∧ c < 2 ∧ lat.toRat = c * lat'.toRat) ∧
      (long ≠ 0 → ∃ c : ℚ, 1 ≤ c ∧ c < 2 ∧ long.toRat = c * long'.toRat) := by
  rw [readFields_toFireObj h hl, Reading.read.injEq] at hf
  rw [← hf]
  exact ⟨_, _, rfl, exists_significand, exists_significand⟩

/-- An encoded event with finite coordinates is read back exactly if they are zero or powers of
two, up to their signs, and its time stands for its day. -/
theorem readsBack_iff (h : Documented day) {e : Event} {lat long : Dyadic}
    (hl : e.location = ⟨.finite lat, .finite long⟩) :
    (∃ f, readFields e.toFireObj = .read f ∧ ReadsBack e f) ↔
      IsPowerOfTwo lat ∧ IsPowerOfTwo long ∧ Represents day e.eventTime := by
  rw [← binade_eq_self_iff, ← binade_eq_self_iff, h.represents_iff]
  constructor
  · rintro ⟨f, hf, hback⟩
    rw [readFields_toFireObj h hl, Reading.read.injEq] at hf
    have hlocation := hback.location
    rw [← hf, hl, CLLocation.mk.injEq, Double.finite.injEq, Double.finite.injEq] at hlocation
    refine ⟨hlocation.1, hlocation.2, ?_⟩
    rw [← hback.eventTime, ← hf]
  · rintro ⟨hlat, hlong, htime⟩
    exact ⟨_, readFields_toFireObj h hl, rfl, rfl, rfl, rfl, rfl, by rw [hlat, hlong, hl], htime⟩

end Decode

open Event PlainKit PlainFoundation

def ann : User := .init "ann" UIKit.blank "locatioin" "bio" "instrument" "seleccted experience" "a" [] []

/-- A jam of Ann's at midnight. -/
def jam (location : CLLocation) : Event := ⟨"jam", (0 : ℤ), location, ann, "drums", "bring sticks", [ann]⟩

/-- An event at 40 degrees north comes back at 32. -/
theorem jam_moved : Documented day ∧ ¬ ∃ f,
    readFields (jam ⟨.finite 40, .finite (-105)⟩).toFireObj = .read f ∧
      ReadsBack (jam ⟨.finite 40, .finite (-105)⟩) f := by
  refine ⟨documented, ?_⟩
  rintro ⟨f, hf, hback⟩
  rw [readFields_toFireObj documented rfl, Reading.read.injEq] at hf
  have hlat : Double.finite (binade 40) = .finite 40 := by
    rw [← hf] at hback
    exact congrArg CLLocation.latitude hback.location
  exact absurd hlat (by decide)

theorem readsBack_iff_jam : ∃ f,
    readFields (jam ⟨.finite 64, .finite (.ofOdd (-1) 1 rfl)⟩).toFireObj = .read f ∧
      ReadsBack (jam ⟨.finite 64, .finite (.ofOdd (-1) 1 rfl)⟩) f := by
  refine (readsBack_iff documented rfl).mpr ⟨?_, ?_, ?_⟩
  · exact binade_eq_self_iff.mp (by decide)
  · exact binade_eq_self_iff.mp (by decide)
  · exact (documented.represents_iff _).mpr rfl

end JamSession
