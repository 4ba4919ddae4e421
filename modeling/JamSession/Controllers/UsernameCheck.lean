import JamSession.Controllers.UserController
import JamSession.Firestore.PlainKit

/-! The username check of the sign-up screen. `dbContainsUsername` folds the answer of a lookup
into one Boolean, and a lookup has four ways to fail: the query fails, nobody has the name,
several have it, or the one document that has it does not decode. Only the second means that
the name is free. -/

namespace JamSession

section

variable [UIKit]

namespace SignUpViewController

open UserController

/-- What the button does once the check has called back. -/
inductive Reaction
  | authUser (email password username : String)
  | presentErrorToUser (localizedError : String)

/-- `createButtonTapped` from the check on, with the cleaned texts of valid fields. -/
def createButtonTapped (users : OrderedMap String Dict) (err : Bool)
    (email password username : String) : Reaction :=
  let validate := dbContainsUsername (grabUserFromUsername users err username)
  if validate = false then .authUser email password username
  else .presentErrorToUser "Username Taken"

end SignUpViewController

namespace UserController

/-- The document under `k` has the username. -/
def Holds (users : OrderedMap String Dict) (username k : String) (d : Dict) : Prop :=
  users.get? k = some d ∧ d.string "username" = some username

/-- The check says what the collection holds if the query succeeds, and if it fails no account
is asked for. -/
def ChecksUsername (users : OrderedMap String Dict) (err : Bool) (username : String) : Prop :=
  if err then ∀ email password e p u,
    SignUpViewController.createButtonTapped users err email password username ≠ .authUser e p u
  else dbContainsUsername (grabUserFromUsername users err username) = true ↔
    ∃ k d, Holds users username k d

/-! ### The answer of the query -/

section Answer

variable {users : OrderedMap String Dict} {username : String}

theorem mem_usersWhere_username {d : Dict} :
    d ∈ usersWhere users "username" username ↔ ∃ k, Holds users username k d := mem_usersWhere

/-- An answer with one document at most comes from one holder at most. -/
theorem length_usersWhere_le_one :
    (usersWhere users "username" username).length ≤ 1 ↔
      ∀ j k d e, Holds users username j d → Holds users username k e → j = k := by
  rw [usersWhere, List.length_map, OrderedMap.length_select_le_one]
  constructor
  · rintro h j k d e ⟨hj, hd⟩ ⟨hk, he⟩
    exact h j k d e hj (decide_eq_true hd) hk (decide_eq_true he)
  · intro h j k d e hj hd hk he
    exact h j k d e ⟨hj, of_decide_eq_true hd⟩ ⟨hk, of_decide_eq_true he⟩

/-- The check is true exactly for one document that decodes. -/
theorem dbContainsUsername_iff :
    dbContainsUsername (grabUserFromUsername users false username) = true ↔
      ∃ d, usersWhere users "username" username = [d] ∧ (User.fromStringAny d).isSome := by
  simp only [grabUserFromUsername, Bool.false_eq_true, if_false]
  constructor
  · intro h
    cases hu : grabUser (some (usersWhere users "username" username)) with
    | error e =>
      rw [hu] at h
      cases h
    | ok u =>
      obtain ⟨d, hd, hdec⟩ := grabUser_ok hu
      exact ⟨d, Option.some.inj hd, by rw [hdec, Option.isSome_some]⟩
  · rintro ⟨d, hd, hdec⟩
    obtain ⟨u, hu⟩ := Option.isSome_iff_exists.mp hdec
    simp [grabUser, hd, hu, dbContainsUsername]

end Answer

/-- The check is right exactly if the query does not fail, one document at most has the
username, and that one decodes. -/
theorem checksUsername_iff (users : OrderedMap String Dict) (err : Bool) (username : String) :
    ChecksUsername users err username ↔
      err = false ∧ (∀ j k d e, Holds users username j d → Holds users username k e → j = k) ∧
        ∀ k d, Holds users username k d → (User.fromStringAny d).isSome := by
  cases err with
  | true =>
    -- a failed query is reported as a free name
    simp only [ChecksUsername, if_true, Bool.true_eq_false, false_and, iff_false]
    intro h
    exact h "" "" "" "" username rfl
  | false =>
    simp only [ChecksUsername, Bool.false_eq_true, if_false, true_and, dbContainsUsername_iff,
      ← length_usersWhere_le_one]
    constructor
    · intro h
      by_cases hnone : ∃ k d, Holds users username k d
      · obtain ⟨d, hd, hdec⟩ := h.mpr hnone
        refine ⟨by rw [hd, List.length_singleton], fun k e he => ?_⟩
        have hmem := mem_usersWhere_username.mpr ⟨k, he⟩
        rw [hd, List.mem_singleton] at hmem
        rwa [hmem]
      · have hnil : usersWhere users "username" username = [] :=
          List.eq_nil_iff_forall_not_mem.mpr fun d hd =>
            hnone ((mem_usersWhere_username.mp hd).imp fun k hk => ⟨d, hk⟩)
        refine ⟨by rw [hnil]; exact Nat.zero_le 1, fun k d hk => absurd ⟨k, d, hk⟩ hnone⟩
    · rintro ⟨hl, hdec⟩
      constructor
      · rintro ⟨d, hd, -⟩
        obtain ⟨k, hk⟩ := mem_usersWhere_username.mp (hd ▸ List.mem_singleton_self d)
        exact ⟨k, d, hk⟩
      · rintro ⟨k, d, hk⟩
        have hmem := mem_usersWhere_username.mpr ⟨k, hk⟩
        obtain ⟨d', hd'⟩ := List.length_eq_one_iff.mp
          (Nat.le_antisymm hl (List.length_pos_of_mem hmem))
        rw [hd', List.mem_singleton] at hmem
        exact ⟨d', hd', hmem ▸ hdec k d hk⟩

end UserController

end

/-! ### A failed query, two holders, a holder that does not decode -/

namespace UserController

open PlainKit

/-- The document that a sign-up of `ann` stores. -/
def annsDocument (uuid : String) : Dict := (makeUserInDB "ann" uuid).toFireObj

/-- A document that has a username and nothing else. -/
def nameOnly : Dict
  | "username" => some (.string "ann")
  | _ => none

/-- A query that fails lets a second ann sign up, and so do two documents with the name and one
that does not decode. -/
theorem takenName_free :
    ¬ ChecksUsername ((∅ : OrderedMap String Dict).set "a" (annsDocument "a")) true "ann" ∧
    ¬ ChecksUsername (((∅ : OrderedMap String Dict).set "a" (annsDocument "a")).set "b"
      (annsDocument "b")) false "ann" ∧
    ¬ ChecksUsername ((∅ : OrderedMap String Dict).set "a" nameOnly) false "ann" := by
  refine ⟨fun h => h "" "" "" "" "ann" rfl, fun h => ?_, fun h => ?_⟩
  · exact absurd (h.mpr ⟨"a", annsDocument "a", by rfl, by rfl⟩) (by decide +kernel)
  · exact absurd (h.mpr ⟨"a", nameOnly, by rfl, by rfl⟩) (by decide +kernel)

end UserController

end JamSession
