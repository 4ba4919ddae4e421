import JamSession.Library.Regex

/-! The password test of the sign-up screen. ICU matches the whole password against one regular
expression, which looks ahead for a lowercase letter and for a special character and then wants
eight characters or more of one set. A refused user is told about a number too, and the set has
the digits, but nothing looks ahead for one: the test and the announced rules part exactly at
the passwords that lack only the digit. -/

namespace JamSession

open Regex

/-- What `\d` matches: the decimal digits of Unicode. -/
class ICU where
  decimalDigit : Char → Bool

namespace ICU

/-- What `.` does not match. -/
def lineTerminator (c : Char) : Bool :=
  (0x0a ≤ c.toNat && c.toNat ≤ 0x0d) || c.toNat == 0x85 || c.toNat == 0x2028 || c.toNat == 0x2029

/-- The line terminators are controls and separators, the decimal digits are numbers. -/
structure DocumentedDigits [ICU] : Prop where
  not_lineTerminator : ∀ c, decimalDigit c = true → lineTerminator c = false

theorem lineTerminator_eq_false {c : Char} (hlo : 0x0e ≤ c.toNat) (hhi : c.toNat < 0x85) :
    lineTerminator c = false := by
  simp only [lineTerminator, Bool.or_eq_false_iff, Bool.and_eq_false_iff, decide_eq_false_iff_not,
    beq_eq_false_iff_ne]
  omega

end ICU

open ICU

namespace Password

/-- `.` -/
def any (c : Char) : Bool := !lineTerminator c

/-- `[a-z]` -/
def lowercase (c : Char) : Bool := 'a' ≤ c && c ≤ 'z'

/-- `[$@$#!%*?&]` -/
def special (c : Char) : Bool := "$@$#!%*?&".toList.contains c

variable [ICU]

/-- `[A-Za-z\d$@$#!%*?&]` -/
def permitted (c : Char) : Bool :=
  ('A' ≤ c && c ≤ 'Z') || ('a' ≤ c && c ≤ 'z') || decimalDigit c || "$@$#!%*?&".toList.contains c

/-- `^(?=.*[a-z])(?=.*[$@$#!%*?&])[A-Za-z\d$@$#!%*?&]{8,}` -/
def passwordTest : Pattern Char :=
  .seq .start
    (.seq (.ahead (.seq (.atLeast 0 (.set any)) (.set lowercase)))
      (.seq (.ahead (.seq (.atLeast 0 (.set any)) (.set special)))
        (.atLeast 8 (.set permitted))))

def isPasswordValid (password : String) : Bool := passwordTest.matchesWhole password.toList

/-! ### The announced rules -/

/-- The special characters, each of them once. -/
def specials : List Char := ['$', '@', '#', '!', '%', '*', '?', '&']

/-- An ASCII letter, a decimal digit or a special character. -/
def Allowed (c : Char) : Prop :=
  c.isAlpha = true ∨ decimalDigit c = true ∨ c ∈ specials

/-- The announced rules but for the number. -/
structure Composed (password : String) : Prop where
  length : 8 ≤ password.length
  allowed : ∀ c ∈ password.toList, Allowed c
  lowercase : ∃ c ∈ password.toList, c.isLower = true
  special : ∃ c ∈ password.toList, c ∈ specials

/-- The announced rules. -/
structure Announced (password : String) : Prop extends Composed password where
  digit : ∃ c ∈ password.toList, decimalDigit c = true

omit [ICU] in
theorem lowercase_iff {c : Char} : lowercase c = true ↔ c.isLower = true := Iff.rfl

omit [ICU] in
theorem special_iff {c : Char} : special c = true ↔ c ∈ specials := by
  simp [special, specials]
  tauto

omit [ICU] in
theorem isAlpha_iff {c : Char} :
    c.isAlpha = true ↔ ('A' ≤ c ∧ c ≤ 'Z') ∨ ('a' ≤ c ∧ c ≤ 'z') := by
  have hupper : c.isUpper = decide ('A' ≤ c ∧ c ≤ 'Z') := rfl
  have hlower : c.isLower = (decide ('a' ≤ c) && decide (c ≤ 'z')) := rfl
  have halpha : c.isAlpha = (c.isUpper || c.isLower) := rfl
  rw [halpha, hupper, hlower, Bool.or_eq_true, Bool.and_eq_true, decide_eq_true_iff,
    decide_eq_true_iff, decide_eq_true_iff]

theorem permitted_iff {c : Char} : permitted c = true ↔ Allowed c := by
  have hspecial : "$@$#!%*?&".toList.contains c = special c := rfl
  simp only [permitted, hspecial, Allowed, isAlpha_iff, ← special_iff, Bool.or_eq_true,
    Bool.and_eq_true, decide_eq_true_eq, or_assoc]

omit [ICU] in
theorem toNat_of_isAlpha {c : Char} (hc : c.isAlpha = true) : 65 ≤ c.toNat ∧ c.toNat ≤ 122 := by
  rcases isAlpha_iff.mp hc with ⟨hlo, hhi⟩ | ⟨hlo, hhi⟩
  · exact ⟨hlo, Nat.le_trans hhi (by decide)⟩
  · exact ⟨Nat.le_trans (by decide) hlo, hhi⟩

omit [ICU] in
theorem toNat_of_mem_specials : ∀ c ∈ specials, 33 ≤ c.toNat ∧ c.toNat ≤ 64 := by
  simp [specials]

/-- No symbol of the set ends a line, so a lookahead reaches all of a password made of them. -/
theorem any_of_permitted (h : DocumentedDigits) {c : Char} (hc : permitted c = true) :
    any c = true := by
  have hline : lineTerminator c = false := by
    rcases permitted_iff.mp hc with halpha | hdigit | hspecial
    · have hrange := toNat_of_isAlpha halpha
      exact lineTerminator_eq_false (by omega) (by omega)
    · exact h.not_lineTerminator c hdigit
    · have hrange := toNat_of_mem_specials c hspecial
      exact lineTerminator_eq_false (by omega) (by omega)
  rw [any, hline, Bool.not_false]

variable {password : String}

/-- What the test accepts: the announced rules without the number. -/
theorem isPasswordValid_iff (h : DocumentedDigits) :
    isPasswordValid password = true ↔ Composed password := by
  have hset : (Pattern.atLeast 8 (.set permitted)).Accepts password.toList ↔
      8 ≤ password.length ∧ ∀ c ∈ password.toList, Allowed c := by
    simp only [accepts_atLeast_set, String.length_toList, permitted_iff]
  have hany (hall : ∀ c ∈ password.toList, Allowed c) : ∀ c ∈ password.toList, any c = true :=
    fun c hc => any_of_permitted h (permitted_iff.mpr (hall c hc))
  rw [isPasswordValid, matchesWhole_iff, passwordTest, accepts_start, accepts_ahead, accepts_ahead,
    hset]
  constructor
  · rintro ⟨hlower, hspecial, hlen, hall⟩
    rw [finds_set_iff_exists_mem (hany hall)] at hlower hspecial
    simp only [lowercase_iff, special_iff] at hlower hspecial
    exact ⟨hlen, hall, hlower, hspecial⟩
  · rintro ⟨hlen, hall, hlower, hspecial⟩
    rw [finds_set_iff_exists_mem (hany hall), finds_set_iff_exists_mem (hany hall)]
    simp only [lowercase_iff, special_iff]
    exact ⟨hlower, hspecial, hlen, hall⟩

theorem announced_iff : Announced password ↔
    Composed password ∧ ∃ c ∈ password.toList, decimalDigit c = true := by
  constructor
  · intro h
    exact ⟨h.toComposed, h.digit⟩
  · rintro ⟨hcomposed, hdigit⟩
    exact ⟨hcomposed, hdigit⟩

/-- The ways to break one of the four rules. -/
theorem not_composed_iff : ¬ Composed password ↔ password.length < 8 ∨
    (∃ c ∈ password.toList, ¬ Allowed c) ∨ (∀ c ∈ password.toList, c.isLower = false) ∨
      ∀ c ∈ password.toList, c ∉ specials := by
  constructor
  · intro h
    by_contra hnone
    simp only [not_or, not_exists, not_and, not_forall, Nat.not_lt, not_not, Bool.not_eq_false,
      exists_prop] at hnone
    obtain ⟨hlen, hall, hlower, hspecial⟩ := hnone
    exact h ⟨hlen, hall, hlower, hspecial⟩
  · rintro (hshort | ⟨c, hc, hother⟩ | hno | hno) h
    · exact absurd h.length (Nat.not_le.mpr hshort)
    · exact hother (h.allowed c hc)
    · obtain ⟨c, hc, hlower⟩ := h.lowercase
      exact Bool.false_ne_true ((hno c hc).symm.trans hlower)
    · obtain ⟨c, hc, hspecial⟩ := h.special
      exact hno c hc hspecial

/-- The test keeps to the announced rules exactly at the passwords that have a digit or break
another rule. -/
theorem isPasswordValid_iff_announced_iff (h : DocumentedDigits) (password : String) :
    (isPasswordValid password = true ↔ Announced password) ↔
      (∃ c ∈ password.toList, decimalDigit c = true) ∨ password.length < 8 ∨
        (∃ c ∈ password.toList, ¬ Allowed c) ∨ (∀ c ∈ password.toList, c.isLower = false) ∨
          ∀ c ∈ password.toList, c ∉ specials := by
  rw [isPasswordValid_iff h, announced_iff, ← not_composed_iff]
  constructor
  · intro hiff
    by_cases hcomposed : Composed password
    · exact Or.inl (hiff.mp hcomposed).2
    · exact Or.inr hcomposed
  · rintro (hdigit | hbroken)
    · exact ⟨fun hcomposed => ⟨hcomposed, hdigit⟩, And.left⟩
    · exact ⟨fun hcomposed => absurd hcomposed hbroken, And.left⟩

end Password

/-! ### A password without a digit -/

namespace AsciiDigits

/-- An ICU whose decimal digits are the ASCII ones. -/
scoped instance icu : ICU where
  decimalDigit := Char.isDigit

theorem documented : ICU.DocumentedDigits where
  not_lineTerminator c hc := by
    have hdigit : c.isDigit = (decide ('0' ≤ c) && decide (c ≤ '9')) := rfl
    obtain ⟨hlo, hhi⟩ := (Bool.and_eq_true _ _).mp (hdigit.symm.trans hc)
    exact lineTerminator_eq_false (Nat.le_trans (by decide) (of_decide_eq_true hlo))
      (Nat.lt_of_le_of_lt (of_decide_eq_true hhi) (by decide))

end AsciiDigits

namespace Password

open AsciiDigits

/-- Eight characters with a lowercase letter and a special character pass without a number. -/
theorem numberless_accepted : ICU.DocumentedDigits ∧
    ¬ (isPasswordValid "abcdefg!" = true ↔ Announced "abcdefg!") := by
  refine ⟨documented, fun hiff => ?_⟩
  have hann := hiff.mp (by decide +kernel)
  exact absurd (List.any_eq_true.mpr hann.digit) (by decide +kernel)

theorem numbered_kept : isPasswordValid "abcdef1!" = true ↔ Announced "abcdef1!" :=
  (isPasswordValid_iff_announced_iff documented "abcdef1!").mpr
    (Or.inl ⟨'1', by decide +kernel, by decide +kernel⟩)

end Password

end JamSession
