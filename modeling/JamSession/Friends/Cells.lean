import JamSession.Library.Runs
import JamSession.Controllers.UserController
import JamSession.Firestore.PlainKit

/-! The cells of the friends screen and their message buttons. A cell keeps its user when it is
dequeued for another row, and `cellForRowAt` starts a lookup whose callback writes to the cell
object, whatever row that is bound to by then; a lookup that fails, or a row that is out of
range, writes nothing. In the section of requests it is the uuid of the sender that is looked
up as a username. -/

namespace JamSession.Friends.Cells

open UserController

section

variable [UIKit]

/-- What a row of one of the two sections showed when a cell was bound to it. -/
inductive Row
  | friend (username : String)
  | request (initialUser : String)
  | outOfRange

/-- The user belongs to the row. -/
def Row.Names (u : User) : Row → Prop
  | .friend username => u.username = username
  | .request initialUser => u.uuid = initialUser
  | .outOfRange => False

instance (u : User) : DecidablePred (Row.Names u)
  | .friend username => inferInstanceAs (Decidable (u.username = username))
  | .request initialUser => inferInstanceAs (Decidable (u.uuid = initialUser))
  | .outOfRange => isFalse id

/-- A reusable cell; `row` is the one it was bound to last. -/
structure FriendCell where
  user : Option User
  row : Option Row

/-- `lookups` are the outstanding ones, each with its cell and the text it was started for. -/
structure State where
  currentUser : User
  cells : List FriendCell
  lookups : List (ℕ × String)

/-- The row at an index path, as the lists are when the cell is bound. -/
def rowAt (m : User) (sec row : ℕ) : Row :=
  if sec = 0 then
    match m.friends[row]? with
    | some username => .friend username
    | none => .outOfRange
  else
    match m.friendRequests[row]? with
    | some req => .request req.initialUser
    | none => .outOfRange

/-- The text that `cellForRowAt` hands to `grabUserFromUsername`. -/
def Row.lookup : Row → Option String
  | .friend username => some username
  | .request initialUser => some initialUser
  | .outOfRange => none

/-- `cellForRowAt` with the dequeued cell `k`. -/
def State.cellForRowAt (s : State) (k : ℕ) (cell : FriendCell) (sec row : ℕ) : State :=
  let r := rowAt s.currentUser sec row
  { s with
    cells := s.cells.set k { cell with row := some r }
    lookups := s.lookups ++ (r.lookup.map fun text => (k, text)).toList }

/-- The callback of a lookup that was started for cell `k`. -/
def State.callback (s : State) (k : ℕ) : Except ManErr User → State
  | .ok user => match s.cells[k]? with
    | some cell => { s with cells := s.cells.set k { cell with user := some user } }
    | none => s
  | .error _ => s

inductive Action
  | cellForRowAt (k sec row : ℕ)
  | changed (friends : List String) (friendRequests : List FriendRequest)
  | callback (j : ℕ) (users : OrderedMap String Dict) (err : Bool)

def step (s : State) : Action → State
  | .cellForRowAt k sec row => match s.cells[k]? with
    | some cell => s.cellForRowAt k cell sec row
    | none => s
  | .changed friends friendRequests =>
    { s with currentUser := { s.currentUser with
        friends := friends
        friendRequests := friendRequests } }
  | .callback j users err => match s.lookups[j]? with
    | some (k, text) => { s with lookups := s.lookups.eraseIdx j }.callback k
        (grabUserFromUsername users err text)
    | none => s

/-- `n` cells that were never bound. -/
def start (m : User) (n : ℕ) : State := ⟨m, List.replicate n ⟨none, none⟩, []⟩

/-- The target of the conversation that `messageTapped` opens, if it opens one. -/
def messageTapped (cell : FriendCell) : Option User := cell.user

/-- Whoever a bound cell messages belongs to the row it was bound to. -/
def TapsRight (s : State) : Prop :=
  ∀ cell ∈ s.cells, ∀ row u, cell.row = some row → messageTapped cell = some u → row.Names u

/-- A lookup that finds `u` for the text is one for the row: of the same name, or of a sender
whose uuid is also the username of `u`, and its uuid. -/
def Row.Answers (text : String) (u : User) : Row → Prop
  | .friend username => text = username
  | .request initialUser => u.uuid = initialUser
  | .outOfRange => False

/-- The condition on a step: a cell is bound with nobody in it or with the user of the row, and
a callback that finds somebody comes while its cell is bound to a row of that user. -/
def StaysRight (s : State) : Action → Prop
  | .cellForRowAt k sec row => ∀ cell u, s.cells[k]? = some cell → cell.user = some u →
      (rowAt s.currentUser sec row).Names u
  | .changed _ _ => True
  | .callback j users err => ∀ k text cell row u, s.lookups[j]? = some (k, text) →
      s.cells[k]? = some cell → cell.row = some row →
      grabUserFromUsername users err text = .ok u → row.Answers text u

/-! ### One step -/

/-- A user who was found by a text has it as username. -/
theorem names_iff_answers {users : OrderedMap String Dict} {err : Bool} {text : String} {u : User}
    (h : grabUserFromUsername users err text = .ok u) (row : Row) :
    row.Names u ↔ row.Answers text u := by
  cases row with
  | friend username => rw [Row.Names, Row.Answers, grabUserFromUsername_username h]
  | request initialUser => exact Iff.rfl
  | outOfRange => exact Iff.rfl

/-- Replacing one cell of a pool that taps right. -/
theorem tapsRight_set {s s' : State} (h : TapsRight s) {k : ℕ} {cell : FriendCell}
    (hk : k < s.cells.length) (hs : s'.cells = s.cells.set k cell) :
    TapsRight s' ↔ ∀ row u, cell.row = some row → cell.user = some u → row.Names u := by
  constructor
  · intro h'
    exact h' cell (hs ▸ List.mem_set hk cell)
  · intro hcell c hc
    rw [hs] at hc
    rcases List.mem_or_eq_of_mem_set hc with hc | rfl
    · exact h c hc
    · exact hcell

theorem tapsRight_congr {s s' : State} (h : TapsRight s) (hs : s'.cells = s.cells) : TapsRight s' := by
  intro cell hcell
  rw [hs] at hcell
  exact h cell hcell

theorem cellForRowAt_iff {s : State} (h : TapsRight s) (k sec row : ℕ) :
    TapsRight (step s (.cellForRowAt k sec row)) ↔ StaysRight s (.cellForRowAt k sec row) := by
  simp only [step, StaysRight]
  split
  · rename_i cell hk
    rw [tapsRight_set h (List.getElem?_eq_some_iff.mp hk).1 rfl]
    constructor
    · intro hcell c u hc
      rw [hk, Option.some.injEq] at hc
      subst hc
      exact hcell _ u rfl
    · intro hcond r u hr
      rw [← Option.some.inj hr]
      exact hcond cell u hk
  · rename_i hk
    refine iff_of_true h ?_
    intro cell u hc
    rw [hk] at hc
    cases hc

/-- The callback of a lookup that found `user`, for a cell bound to a row or to none. -/
theorem callback_ok_iff {s s' : State} (h : TapsRight s) {k : ℕ} {user : User}
    (hs : s'.cells = (s.callback k (.ok user)).cells) :
    TapsRight s' ↔ ∀ cell row, s.cells[k]? = some cell → cell.row = some row → row.Names user := by
  simp only [State.callback] at hs
  split at hs
  · rename_i cell hk
    rw [tapsRight_set h (List.getElem?_eq_some_iff.mp hk).1 hs]
    constructor
    · intro hcell c row hc hrow
      rw [hk, Option.some.injEq] at hc
      subst hc
      exact hcell row user hrow rfl
    · intro hcond row u hrow hu
      rw [← Option.some.inj hu]
      exact hcond cell row hk hrow
  · rename_i hk
    refine iff_of_true (tapsRight_congr h hs) ?_
    intro cell row hc
    rw [hk] at hc
    cases hc

theorem callback_iff {s : State} (h : TapsRight s) (j : ℕ) (users : OrderedMap String Dict)
    (err : Bool) :
    TapsRight (step s (.callback j users err)) ↔ StaysRight s (.callback j users err) := by
  simp only [step, StaysRight]
  split
  · rename_i k text hj
    cases hfound : grabUserFromUsername users err text with
    | error e =>
      refine iff_of_true (tapsRight_congr h rfl) ?_
      intro k' text' cell row u hj' _ _ hu
      rw [hj] at hj'
      cases hj'
      rw [hfound] at hu
      cases hu
    | ok user =>
      rw [callback_ok_iff (s := { s with lookups := s.lookups.eraseIdx j }) h rfl]
      constructor
      · intro hnames k' text' cell row u hj' hc hrow hu
        rw [hj] at hj'
        cases hj'
        rw [hfound] at hu
        cases hu
        exact (names_iff_answers hfound row).mp (hnames cell row hc hrow)
      · intro hcond cell row hc hrow
        exact (names_iff_answers hfound row).mpr (hcond k text cell row user hj hc hrow hfound)
  · rename_i hj
    refine iff_of_true h ?_
    intro k text cell row u hj'
    rw [hj] at hj'
    cases hj'

theorem step_iff {s : State} (h : TapsRight s) (a : Action) :
    TapsRight (step s a) ↔ StaysRight s a := by
  cases a with
  | cellForRowAt k sec row => exact cellForRowAt_iff h k sec row
  | changed friends friendRequests => exact iff_of_true h trivial
  | callback j users err => exact callback_iff h j users err

theorem tapsRight_start (m : User) (n : ℕ) : TapsRight (start m n) := by
  intro cell hcell row u hrow
  rw [List.eq_of_mem_replicate hcell] at hrow
  cases hrow

/-- Every bound cell messages the user of its row in every state exactly if every step meets the
condition. -/
theorem tapsRight_iff_steps (m : User) (n : ℕ) (as : List Action) :
    Runs.Always step TapsRight (start m n) as ↔ Runs.Each step StaysRight (start m n) as :=
  Runs.always_iff_each (I := TapsRight) (fun _ h => h) (fun _ a h => step_iff h a)
    (fun _ a h hC => (step_iff h a).mpr hC) (s := start m n) (tapsRight_start m n) as

end

/-! ### A cell that is dequeued again, and a username that is a uuid -/

open PlainKit

def bob : User := { makeUserInDB "bob" "b" with
  friends := ["ann", "cat"]
  friendRequests := [⟨"d", "b"⟩] }

/-- Ann, Cat, and a user whose username is the uuid of the one who sent Bob a request. -/
def annCatAndD : OrderedMap String Dict := (((∅ : OrderedMap String Dict).set "a"
  (makeUserInDB "ann" "a").toFireObj).set "c" (makeUserInDB "cat" "c").toFireObj).set "x"
    (makeUserInDB "d" "x").toFireObj

/-- The only cell is bound to Ann's row and then to Cat's, and Ann's lookup answers last. -/
def annLast : List Action := [.cellForRowAt 0 0 0, .cellForRowAt 0 0 1,
  .callback 1 annCatAndD false, .callback 0 annCatAndD false]

/-- On Cat's row the button messages Ann; it does so as well when the lookup of Cat fails; and on
the row of a request it messages a user who did not send it. -/
theorem annLast_misdirected : ¬ Runs.Always step TapsRight (start bob 1) annLast ∧
    ¬ Runs.Always step TapsRight (start bob 1)
      [.cellForRowAt 0 0 0, .callback 0 annCatAndD false, .cellForRowAt 0 0 1] ∧
    ¬ Runs.Always step TapsRight (start bob 1)
      [.cellForRowAt 0 1 0, .callback 0 annCatAndD false] := by
  refine ⟨fun h => ?_, fun h => ?_, fun h => ?_⟩
  · exact absurd (h.last ⟨some (makeUserInDB "ann" "a"), some (.friend "cat")⟩
      (List.mem_singleton_self _) _ _ rfl rfl) (by decide)
  · exact absurd (h.last ⟨some (makeUserInDB "ann" "a"), some (.friend "cat")⟩
      (List.mem_singleton_self _) _ _ rfl rfl) (by decide)
  · exact absurd (h.last ⟨some (makeUserInDB "d" "x"), some (.request "d")⟩
      (List.mem_singleton_self _) _ _ rfl rfl) (by decide)

end JamSession.Friends.Cells
