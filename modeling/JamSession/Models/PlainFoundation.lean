import Mathlib.Data.List.Nodup
import Mathlib.Logic.Equiv.List
import JamSession.Models.Foundation

/-! A Foundation for concrete runs: dates are seconds, days begin at midnight UTC, and the texts
are the real ones where a run needs them. Every other double and day has a text made of its
code number, so that all of them can be read back. -/

namespace JamSession.PlainFoundation

/-- The values with their own texts. -/
structure Table (α : Type) where
  entries : List (α × String)
  keys : (entries.map Prod.fst).Nodup
  texts : (entries.map Prod.snd).Nodup
  plain : ∀ e ∈ entries, e.2.toList.head? ≠ some '#'

section Table

variable {α : Type} [DecidableEq α] (t : Table α) (code : α → ℕ) (ofCode : ℕ → Option α)

def codeText (n : ℕ) : String := String.ofList ('#' :: List.replicate n '1')

def Table.text (x : α) : String :=
  match t.entries.find? (·.1 = x) with
  | some e => e.2
  | none => codeText (code x)

def Table.value (s : String) : Option α :=
  match t.entries.find? (·.2 = s) with
  | some e => some e.1
  | none => ofCode (s.toList.length - 1)

theorem Table.text_mem (x : α) : (∃ e ∈ t.entries, e.1 = x ∧ t.text code x = e.2) ∨
    t.text code x = codeText (code x) := by
  unfold Table.text
  split
  · rename_i e he
    exact Or.inl ⟨e, List.mem_of_find?_eq_some he, by simpa using List.find?_some he, rfl⟩
  · exact Or.inr rfl

variable {t code ofCode}

theorem Table.value_text (hcode : ∀ x, ofCode (code x) = some x) (x : α) :
    t.value ofCode (t.text code x) = some x := by
  unfold Table.value
  rcases t.text_mem code x with ⟨e, he, rfl, htext⟩ | htext
  · split
    · rename_i d hd
      have hmem := List.mem_of_find?_eq_some hd
      have hsnd : d.2 = e.2 := by simpa [htext] using List.find?_some hd
      rw [List.inj_on_of_nodup_map t.texts hmem he hsnd]
    · rename_i hnone
      simpa [htext] using List.find?_eq_none.mp hnone e he
  · split
    · rename_i d hd
      have hmem := List.mem_of_find?_eq_some hd
      have hsnd : d.2 = codeText (code x) := by simpa [htext] using List.find?_some hd
      exact absurd (by rw [hsnd]; simp [codeText]) (t.plain d hmem)
    · rw [htext]
      simp [codeText, hcode]

/-- What holds of the texts of the table and of those made of numbers holds of all. -/
theorem Table.text_induction {P : String → Prop} (htexts : ∀ e ∈ t.entries, P e.2)
    (hcodes : ∀ n, P (codeText n)) (x : α) : P (t.text code x) := by
  rcases t.text_mem code x with ⟨e, he, -, htext⟩ | htext
  · rw [htext]
    exact htexts e he
  · rw [htext]
    exact hcodes (code x)

end Table

/-! ### Doubles and days -/

def dyadicCode : Dyadic → ℕ
  | .zero => 0
  | .ofOdd n k _ => Encodable.encode (n, k) + 1

def ofDyadicCode : ℕ → Option Dyadic
  | 0 => some .zero
  | c + 1 => (Encodable.decode c : Option (ℤ × ℤ)).bind fun p =>
    if h : p.1 % 2 = 1 then some (.ofOdd p.1 p.2 h) else none

theorem ofDyadicCode_dyadicCode (x : Dyadic) : ofDyadicCode (dyadicCode x) = some x := by
  cases x with
  | zero => rfl
  | ofOdd n k hn =>
    simp only [dyadicCode, ofDyadicCode, Encodable.encodek]
    simp [hn]

def doubles : Table Dyadic where
  entries := [(64, "64.0"), (-64, "-64.0"), (32, "32.0"), (.ofOdd (-1) 1 rfl, "-0.5")]
  keys := by decide
  texts := by decide
  plain := by decide

def days : Table ℤ where
  entries := [(0, "Thursday, January 1, 1970")]
  keys := by decide
  texts := by decide
  plain := by decide

scoped instance foundation : Foundation where
  Date := ℤ
  stringFrom t := days.text Encodable.encode (t / 86400)
  dateFrom s := (days.value Encodable.decode s).map (· * 86400)
  printDouble
    | .finite x => doubles.text dyadicCode x
    | .infinite negative => if negative then "-inf" else "inf"
    | .nan => "nan"
  readDouble s :=
    if s = "inf" then some (.infinite false)
    else if s = "-inf" then some (.infinite true)
    else if s = "nan" then some .nan
    else (doubles.value ofDyadicCode s).map .finite
  characters s := s.toList.map String.singleton

def day (t : ℤ) : ℤ := t / 86400

def Plain (s : String) : Prop := s ≠ "" ∧ s.toList.all (fun c => Printable c ∧ c ≠ ',') = true

instance : DecidablePred Plain := fun _ => inferInstanceAs (Decidable (_ ∧ _))

theorem printDouble_plain (x : Double) : Plain (Foundation.printDouble x) := by
  cases x with
  | finite x =>
    refine Table.text_induction (t := doubles) (P := Plain) (by decide) (fun n => ⟨?_, ?_⟩) x
    · simp [codeText, ← String.toList_inj]
    · rw [codeText, String.toList_ofList, List.all_cons, List.all_eq_true.mpr fun c hc => ?_]
      · rfl
      · rw [(List.mem_replicate.mp hc).2]
        rfl
  | infinite negative => cases negative <;> decide
  | nan => decide

/-- The texts of the values that are not finite belong to no finite one. -/
theorem text_finite (x : Dyadic) : doubles.text dyadicCode x ≠ "inf" ∧
    doubles.text dyadicCode x ≠ "-inf" ∧ doubles.text dyadicCode x ≠ "nan" := by
  refine Table.text_induction (t := doubles)
    (P := fun s => s ≠ "inf" ∧ s ≠ "-inf" ∧ s ≠ "nan") (by decide) (fun n => ?_) x
  simp [codeText, ← String.toList_inj]

theorem readDouble_printDouble (x : Dyadic) :
    Foundation.readDouble (Foundation.printDouble (.finite x)) = some (.finite x) := by
  obtain ⟨hinf, hneg, hnan⟩ := text_finite x
  simp only [Foundation.readDouble, Foundation.printDouble, if_neg hinf, if_neg hneg, if_neg hnan,
    Table.value_text ofDyadicCode_dyadicCode, Option.map_some]

theorem documented : Documented (day : Foundation.Date → ℤ) where
  string_day t t' ht := congrArg (days.text Encodable.encode) ht
  date_string t := by
    refine ⟨day t * (86400 : ℤ), ?_, ?_⟩
    · show (days.value Encodable.decode (days.text Encodable.encode (day t))).map _ = _
      rw [Table.value_text Encodable.encodek]
      rfl
    · show day t * 86400 / 86400 = day t
      omega
  read_print := readDouble_printDouble
  print_ne x := (printDouble_plain x).1
  print_chars x := by simpa using (printDouble_plain x).2
  chars_ascii _ _ := rfl

end JamSession.PlainFoundation
