import Mathlib.Data.List.DropRight
import JamSession.Controllers.UsernameCheck
import JamSession.Helpers.PasswordTest

/-! The fields of the sign-up screen. The create button compares the two password texts, has
the fields validated and hands the trimmed texts to the check of the username, so an account
is asked for exactly with a password that the test accepts. -/

namespace JamSession

/-- What `.whitespacesAndNewlines` contains. -/
class CharacterSet where
  whitespacesAndNewlines : Char → Bool

namespace SignUpViewController

open CharacterSet UserController Password

section

variable [UIKit] [CharacterSet] [ICU]

/-- `trimmingCharacters(in: .whitespacesAndNewlines)` -/
def trimmingCharacters (text : String) : String :=
  String.ofList ((text.toList.dropWhile whitespacesAndNewlines).rdropWhile whitespacesAndNewlines)

/-- The rules as a user is told them. -/
def passwordRules : String :=
  " Please make sure password has at least 8 characters, contains a special character and a number."

/-- The texts that `validateFields` presents and the error that it returns, the text of the `()`
that comes back from presenting. -/
def validateFields (email password : String) : List String × Option String :=
  if trimmingCharacters email = "" then (["Please fill in all fields"], some "()")
  else
    let cleanedPassword := trimmingCharacters password
    if isPasswordValid cleanedPassword = false then ([passwordRules], some "()")
    else ([], none)

/-- `createButtonTapped` from its start: the texts that it presents, and where the check of the
username leads if the fields pass. `confirmed` says that the two password texts are equal. -/
def createButton (users : OrderedMap String Dict) (err : Bool) (confirmed : Bool)
    (email username password : String) : List String × Option Reaction :=
  if confirmed then
    match validateFields email password with
    | (shown, some error) => (shown ++ [error], none)
    | (shown, none) => (shown, some (createButtonTapped users err (trimmingCharacters email)
        (trimmingCharacters password) (trimmingCharacters username)))
  else (["passwords must match"], none)

variable {users : OrderedMap String Dict} {err confirmed : Bool} {email username password : String}

omit [UIKit] in
theorem validateFields_eq_none_iff : (validateFields email password).2 = none ↔
    trimmingCharacters email ≠ "" ∧ isPasswordValid (trimmingCharacters password) = true := by
  by_cases hemail : trimmingCharacters email = ""
  · simp [validateFields, hemail]
  · by_cases hvalid : isPasswordValid (trimmingCharacters password) = true
    · simp [validateFields, hemail, hvalid]
    · simp [validateFields, hemail, hvalid]

omit [UIKit] in
/-- What is refused is presented. -/
theorem validateFields_shown : (validateFields email password).1 = [] ↔
    (validateFields email password).2 = none := by
  simp only [validateFields]
  split_ifs <;> simp

/-- Fields that pass lead to the check of the username, others to a text for the user. -/
theorem createButton_snd : (createButton users err confirmed email username password).2 =
    if confirmed = true ∧ (validateFields email password).2 = none then
      some (createButtonTapped users err (trimmingCharacters email) (trimmingCharacters password)
        (trimmingCharacters username))
    else none := by
  cases confirmed with
  | false => simp [createButton]
  | true =>
    rcases hfields : validateFields email password with ⟨shown, _ | error⟩
    · simp [createButton, hfields]
    · simp [createButton, hfields]

theorem createButton_shown : (createButton users err confirmed email username password).1 = [] ↔
    (createButton users err confirmed email username password).2.isSome := by
  cases confirmed with
  | false => simp [createButton]
  | true =>
    rcases hfields : validateFields email password with ⟨shown, _ | error⟩
    · -- fields that pass present nothing
      have hshown := validateFields_shown.mpr (congrArg Prod.snd hfields)
      rw [hfields] at hshown
      simp [createButton, hfields, hshown]
    · simp [createButton, hfields]

omit [CharacterSet] [ICU] in
theorem createButtonTapped_eq_authUser_iff {e p u : String} :
    createButtonTapped users err email password username = .authUser e p u ↔
      e = email ∧ p = password ∧ u = username ∧
        dbContainsUsername (grabUserFromUsername users err username) = false := by
  simp only [createButtonTapped]
  split_ifs with hfree
  · simp [hfree, eq_comm]
  · simp [hfree]

/-- An account is asked for exactly with the trimmed texts of fields that pass, and with a
username that the check calls free. -/
theorem createButton_eq_authUser_iff {e p u : String} :
    (createButton users err confirmed email username password).2 = some (.authUser e p u) ↔
      confirmed = true ∧ e = trimmingCharacters email ∧ p = trimmingCharacters password ∧
        u = trimmingCharacters username ∧ e ≠ "" ∧ isPasswordValid p = true ∧
          dbContainsUsername (grabUserFromUsername users err u) = false := by
  rw [createButton_snd, Option.ite_none_right_eq_some, validateFields_eq_none_iff,
    Option.some_inj, createButtonTapped_eq_authUser_iff]
  constructor
  · rintro ⟨⟨hconfirmed, hemail, hvalid⟩, rfl, rfl, rfl, hfree⟩
    exact ⟨hconfirmed, rfl, rfl, rfl, hemail, hvalid, hfree⟩
  · rintro ⟨hconfirmed, rfl, rfl, rfl, hemail, hvalid, hfree⟩
    exact ⟨⟨hconfirmed, hemail, hvalid⟩, rfl, rfl, rfl, hfree⟩

/-- The password of every account that is asked for keeps the rules that the test has. -/
theorem composed_of_authUser (h : ICU.DocumentedDigits) {e p u : String}
    (ht : (createButton users err confirmed email username password).2 =
      some (.authUser e p u)) : Composed p := by
  obtain ⟨-, -, -, -, -, hvalid, -⟩ := createButton_eq_authUser_iff.mp ht
  exact (isPasswordValid_iff h).mp hvalid

end

end SignUpViewController

end JamSession
