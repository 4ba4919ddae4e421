import JamSession.Chats.ChatList

/-! The cells of the list of chats. `cellForRowAt` looks up the other participant of the row's
chat, and the callback writes the name and the picture to the cell object, whatever row that is
bound to by then. The list only grows, so a row keeps its chat, and a cell shows the other
participant of its row as soon as the lookup that was started last for the cell has called back
last and found its user; until then, and in any other order, it can show somebody else. -/

namespace JamSession.Chats.MessageCells

open UserController

/-! ### The last lookup of a cell -/

/-- The last lookup for the cell `k` is for the uuid. -/
def LastFor (k : ℕ) (uuid : String) (lookups : List (ℕ × String)) : Prop :=
  ∃ earlier later, lookups = earlier ++ (k, uuid) :: later ∧ ∀ l ∈ later, l.1 ≠ k

section LastFor

variable {k : ℕ} {uuid : String} {lookups : List (ℕ × String)}

theorem lastFor_append : LastFor k uuid (lookups ++ [(k, uuid)]) := ⟨lookups, [], rfl, nofun⟩

theorem LastFor.append (h : LastFor k uuid lookups) {more : List (ℕ × String)}
    (hmore : ∀ l ∈ more, l.1 ≠ k) : LastFor k uuid (lookups ++ more) := by
  obtain ⟨earlier, later, rfl, hlater⟩ := h
  refine ⟨earlier, later ++ more, by simp, fun l hl => ?_⟩
  exact (List.mem_append.mp hl).elim (hlater l) (hmore l)

/-- It stays the last one for the cell, unless it is the one that is taken out. -/
theorem LastFor.eraseIdx (h : LastFor k uuid lookups) {j : ℕ} {l : ℕ × String}
    (hj : lookups[j]? = some l) : LastFor k uuid (lookups.eraseIdx j) ∨
      l = (k, uuid) ∧ ∀ l' ∈ lookups.drop (j + 1), l'.1 ≠ k := by
  obtain ⟨earlier, later, rfl, hlater⟩ := h
  rcases lt_trichotomy j earlier.length with hlt | rfl | hgt
  · left
    exact ⟨earlier.eraseIdx j, later, by rw [List.eraseIdx_append_of_lt_length hlt], hlater⟩
  · right
    rw [List.getElem?_append_right le_rfl, Nat.sub_self, List.getElem?_cons_zero,
      Option.some.injEq] at hj
    refine ⟨hj.symm, ?_⟩
    have hdrop : (earlier ++ (k, uuid) :: later).drop (earlier.length + 1) = later := by
      rw [← List.drop_drop, List.drop_left, List.drop_one, List.tail_cons]
    rwa [hdrop]
  · left
    obtain ⟨i, rfl⟩ := Nat.exists_eq_add_of_lt hgt
    refine ⟨earlier, later.eraseIdx i, ?_, fun l' hl' => hlater l' (List.mem_of_mem_eraseIdx hl')⟩
    rw [List.eraseIdx_append_of_length_le (by omega)]
    have hi : earlier.length + i + 1 - earlier.length = i + 1 := by omega
    rw [hi, List.eraseIdx_cons_succ]

end LastFor

/-! ### The cells -/

section

variable [UIKit]

/-- A reusable cell with the text and the image that were written to it; `row` is the one it was
bound to last, for statements alone. -/
structure MessageCell where
  nameLabel : Option String
  pfpView : Option UIKit.UIImage
  row : Option ℕ

def MessageCell.filled (cell : MessageCell) (u : User) : MessageCell :=
  { cell with nameLabel := some u.username, pfpView := some u.profilePic }

/-- The list of `ChatsController`, the cells, and the outstanding lookups, each with its cell and
the uuid it was started for, the oldest first. -/
structure State where
  chats : List (List String)
  cells : List MessageCell
  lookups : List (ℕ × String)
  trapped : Bool

def start (n : ℕ) : State := ⟨[], List.replicate n ⟨none, none, none⟩, [], false⟩

/-- What `cellForRowAt` does for a chat: an index out of range traps. -/
inductive Start
  | trap
  | nothing
  | lookup (uuid : String)

/-- The participant who is looked up for the user `cu`. -/
def otherOf (cu : String) (users : List String) : Start :=
  if users.idxOf? cu = some 1 then match users[0]? with
    | none => .trap
    | some uuid => .lookup uuid
  else if users.idxOf? cu = some 0 then match users[1]? with
    | none => .trap
    | some uuid => .lookup uuid
  else .nothing

/-- `cellForRowAt` with the dequeued cell `k`. -/
def State.cellForRowAt (s : State) (cu : String) (k : ℕ) (cell : MessageCell) (row : ℕ) : State :=
  match s.chats[row]? with
  | none => { s with trapped := true }
  | some users =>
    let bound := { s with cells := s.cells.set k { cell with row := some row } }
    match otherOf cu users with
    | .trap => { s with trapped := true }
    | .nothing => bound
    | .lookup uuid => { bound with lookups := s.lookups ++ [(k, uuid)] }

/-- The callback of a lookup that was started for cell `k`. -/
def State.callback (s : State) (k : ℕ) : Except ManErr User → State
  | .ok u => match s.cells[k]? with
    | some cell => { s with cells := s.cells.set k (cell.filled u) }
    | none => s
  | .error _ => s

/-- A load of the chats is answered, a cell is dequeued for a row, or the lookup at an index calls
back, over the users as they are by then. -/
inductive Action
  | loaded (documents : Option (List (String × Dict)))
  | cellForRowAt (k row : ℕ)
  | callback (j : ℕ) (users : OrderedMap String Dict) (err : Bool)

def step (cu : String) (s : State) (a : Action) : State :=
  if s.trapped then s else
    match a with
    | .loaded documents => { s with chats := getNumberofChats s.chats documents }
    | .cellForRowAt k row => match s.cells[k]? with
      | some cell => s.cellForRowAt cu k cell row
      | none => s
    | .callback j users err => match s.lookups[j]? with
      | some (k, uuid) => { s with lookups := s.lookups.eraseIdx j }.callback k
          (grabUserFromUuid users err uuid)
      | none => s

/-- The cell shows a user with the uuid. -/
def MessageCell.Shows (cell : MessageCell) (uuid : String) : Prop :=
  ∃ u : User, u.uuid = uuid ∧ cell.nameLabel = some u.username ∧
    cell.pfpView = some u.profilePic

/-- The cell is bound to a row whose chat has the other participant `uuid`. -/
def MessageCell.Of (cu : String) (chats : List (List String)) (cell : MessageCell)
    (uuid : String) : Prop :=
  ∃ row users, cell.row = some row ∧ chats[row]? = some users ∧ otherOf cu users = .lookup uuid

/-- Every bound cell that no lookup is outstanding for shows the other participant of its row. -/
def ShowsOther (cu : String) (s : State) : Prop := ∀ k cell uuid, s.cells[k]? = some cell →
  cell.Of cu s.chats uuid → (∀ l ∈ s.lookups, l.1 ≠ k) → cell.Shows uuid

/-- A lookup that no later one for its cell is outstanding behind comes back when no earlier one
is outstanding either, and finds its user. -/
def LastInOrder (s : State) : Action → Prop
  | .callback j users err => ∀ k uuid, s.lookups[j]? = some (k, uuid) →
      (∀ l ∈ s.lookups.drop (j + 1), l.1 ≠ k) →
      (∀ l ∈ s.lookups.take j, l.1 ≠ k) ∧ ∃ u, grabUserFromUuid users err uuid = .ok u
  | _ => True

/-! ### One step -/

/-- A bound cell whose row has another participant waits for the lookup of that one, or shows
it with no lookup outstanding; and bound rows are in range. -/
structure Coming (cu : String) (s : State) : Prop where
  cells : ∀ k cell uuid, s.cells[k]? = some cell → cell.Of cu s.chats uuid →
    LastFor k uuid s.lookups ∨ (∀ l ∈ s.lookups, l.1 ≠ k) ∧ cell.Shows uuid
  rows : ∀ cell ∈ s.cells, ∀ row, cell.row = some row → row < s.chats.length

variable {cu : String} {s : State}

theorem Coming.showsOther (h : Coming cu s) : ShowsOther cu s := by
  intro k cell uuid hk hof hnone
  rcases h.cells k cell uuid hk hof with ⟨earlier, later, hlookups, -⟩ | ⟨-, hshows⟩
  · exact absurd rfl (hnone (k, uuid) (by simp [hlookups]))
  · exact hshows

theorem coming_start (cu : String) (n : ℕ) : Coming cu (start n) := by
  have hrow : ∀ cell ∈ (start n).cells, cell.row = none := fun cell hcell => by
    rw [List.eq_of_mem_replicate hcell]
  refine ⟨fun k cell uuid hk hof => ?_, fun cell hcell row hr => ?_⟩
  · obtain ⟨row, users, hr, -⟩ := hof
    rw [hrow cell (List.mem_of_getElem? hk)] at hr
    cases hr
  · rw [hrow cell hcell] at hr
    cases hr

/-- New chats come after those that the rows are bound to. -/
theorem Coming.loaded (h : Coming cu s) (documents : Option (List (String × Dict))) :
    Coming cu { s with chats := getNumberofChats s.chats documents } := by
  obtain ⟨more, hmore⟩ : ∃ more, getNumberofChats s.chats documents = s.chats ++ more := by
    cases documents with
    | none => exact ⟨[], (List.append_nil _).symm⟩
    | some documents => exact ⟨_, rfl⟩
  rw [hmore]
  refine ⟨fun k cell uuid hk hof => ?_, fun cell hcell row hr => ?_⟩
  · obtain ⟨row, users, hr, husers, hother⟩ := hof
    have hlt := h.rows cell (List.mem_of_getElem? hk) row hr
    rw [List.getElem?_append_left hlt] at husers
    exact h.cells k cell uuid hk ⟨row, users, hr, husers, hother⟩
  · have hlt := h.rows cell hcell row hr
    simp only [List.length_append]
    omega

/-- The cell `k` is bound to a row of the list, whatever is looked up for it. -/
theorem Coming.bound (h : Coming cu s) {k row : ℕ} {cell : MessageCell} {users : List String}
    (husers : s.chats[row]? = some users) {more : List (ℕ × String)}
    (hmore : ∀ l ∈ more, l.1 = k)
    (hlast : ∀ uuid, otherOf cu users = .lookup uuid → more = [(k, uuid)]) :
    Coming cu { s with
      cells := s.cells.set k { cell with row := some row }
      lookups := s.lookups ++ more } := by
  refine ⟨fun k' cell' uuid hk' hof => ?_, fun cell' hcell' row' hr => ?_⟩
  · by_cases hkk : k' = k
    · subst hkk
      obtain ⟨hlt, rfl⟩ := List.getElem?_eq_some_iff.mp hk'
      simp only [List.getElem_set_self] at hof
      obtain ⟨row', users', hr, husers', hother⟩ := hof
      cases hr
      cases husers.symm.trans husers'
      left
      rw [hlast uuid hother]
      exact lastFor_append
    · rw [List.getElem?_set_ne (Ne.symm hkk)] at hk'
      have hother : ∀ l ∈ more, l.1 ≠ k' := fun l hl => by
        rw [hmore l hl]
        exact Ne.symm hkk
      rcases h.cells k' cell' uuid hk' hof with hlastFor | ⟨hnone, hshows⟩
      · exact Or.inl (hlastFor.append hother)
      · refine Or.inr ⟨fun l hl => ?_, hshows⟩
        exact (List.mem_append.mp hl).elim (hnone l) (hother l)
  · rcases List.mem_or_eq_of_mem_set hcell' with hcell' | rfl
    · exact h.rows cell' hcell' row' hr
    · cases hr
      exact (List.getElem?_eq_some_iff.mp husers).1

theorem Coming.cellForRowAt (h : Coming cu s) (k row : ℕ) (cell : MessageCell) :
    Coming cu (s.cellForRowAt cu k cell row) := by
  unfold State.cellForRowAt
  split
  · exact ⟨h.cells, h.rows⟩
  · next users husers =>
    dsimp only
    split
    · exact ⟨h.cells, h.rows⟩
    · next hnothing =>
      have hbound : Coming cu { s with
          cells := s.cells.set k { cell with row := some row }
          lookups := s.lookups ++ [] } := by
        refine h.bound husers (fun l hl => ?_) fun uuid hu => ?_
        · cases hl
        · rw [hnothing] at hu
          cases hu
      simpa using hbound
    · next uuid hlookup =>
      refine h.bound husers (fun l hl => ?_) fun uuid' hu => ?_
      · rw [List.mem_singleton.mp hl]
      · rw [hlookup] at hu
        cases hu
        rfl

/-- A callback fills its own cell only. -/
theorem cells_callback {k k' : ℕ} {r : Except ManErr User} {cell' : MessageCell}
    (hk' : (s.callback k r).cells[k']? = some cell') : ∃ cell, s.cells[k']? = some cell ∧
      (k' ≠ k → cell' = cell) ∧ (k' = k → ∀ u, r = .ok u → cell' = cell.filled u) ∧
        cell'.row = cell.row := by
  cases r with
  | error e => exact ⟨cell', hk', fun _ => rfl, nofun, rfl⟩
  | ok u =>
    unfold State.callback at hk'
    dsimp only at hk'
    split at hk'
    · next cell hcell =>
      simp only [List.getElem?_set] at hk'
      split_ifs at hk' with hkk hlt
      · subst hkk
        cases hk'
        refine ⟨cell, hcell, fun hne => absurd rfl hne, fun _ u' hu => ?_, rfl⟩
        cases hu
        rfl
      · exact ⟨cell', hk', fun _ => rfl, fun heq => absurd heq.symm hkk, rfl⟩
    · next hcell =>
      refine ⟨cell', hk', fun _ => rfl, fun hkk => ?_, rfl⟩
      rw [hkk, hcell] at hk'
      cases hk'

theorem callback_fields (s : State) (k : ℕ) (r : Except ManErr User) :
    (s.callback k r).chats = s.chats ∧ (s.callback k r).lookups = s.lookups := by
  unfold State.callback
  split
  · split <;> exact ⟨rfl, rfl⟩
  · exact ⟨rfl, rfl⟩

/-- A lookup calls back. What is outstanding for other cells stays, and the last lookup of the
cell finds its user. -/
theorem Coming.callback (h : Coming cu s) {j : ℕ} {users : OrderedMap String Dict} {err : Bool}
    {k : ℕ} {uuid : String} (hj : s.lookups[j]? = some (k, uuid))
    (hlast : (∀ l ∈ s.lookups.drop (j + 1), l.1 ≠ k) →
      (∀ l ∈ s.lookups.take j, l.1 ≠ k) ∧ ∃ u, grabUserFromUuid users err uuid = .ok u) :
    Coming cu ({ s with lookups := s.lookups.eraseIdx j }.callback k
      (grabUserFromUuid users err uuid)) := by
  obtain ⟨hchats, hlookups⟩ := callback_fields { s with lookups := s.lookups.eraseIdx j } k
    (grabUserFromUuid users err uuid)
  refine ⟨fun k' cell' uuid' hk' hof => ?_, fun cell' hcell' row hr => ?_⟩
  · obtain ⟨cell, hcell, hother, hown, hrow⟩ := cells_callback hk'
    rw [hlookups]
    have hof' : cell.Of cu s.chats uuid' := by
      obtain ⟨row, users', hr, husers, hother'⟩ := hof
      rw [hchats] at husers
      exact ⟨row, users', hrow ▸ hr, husers, hother'⟩
    rcases h.cells k' cell uuid' hcell hof' with hlastFor | ⟨hnone, hshows⟩
    · rcases hlastFor.eraseIdx hj with hkept | ⟨heq, hlater⟩
      · exact Or.inl hkept
      · obtain ⟨rfl, rfl⟩ := Prod.mk.inj heq
        obtain ⟨hearlier, u, hu⟩ := hlast hlater
        refine Or.inr ⟨fun l hl => ?_, ?_⟩
        · rw [List.eraseIdx_eq_take_drop_succ] at hl
          exact (List.mem_append.mp hl).elim (hearlier l) (hlater l)
        · rw [hown rfl u hu]
          exact ⟨u, grabUserFromUuid_uuid hu, rfl, rfl⟩
    · have hne : k' ≠ k := fun heq => hnone _ (List.mem_of_getElem? hj) heq.symm
      rw [hother hne]
      exact Or.inr ⟨fun l hl => hnone l (List.mem_of_mem_eraseIdx hl), hshows⟩
  · obtain ⟨k', hk'⟩ := List.getElem?_of_mem hcell'
    obtain ⟨cell, hcell, -, -, hrow⟩ := cells_callback hk'
    rw [hchats]
    exact h.rows cell (List.mem_of_getElem? hcell) row (hrow ▸ hr)

theorem Coming.step (h : Coming cu s) {a : Action} (ha : LastInOrder s a) :
    Coming cu (step cu s a) := by
  unfold MessageCells.step
  split_ifs
  · exact h
  cases a with
  | loaded documents => exact h.loaded documents
  | cellForRowAt k row =>
    dsimp only
    split
    · exact h.cellForRowAt k row _
    · exact h
  | callback j users err =>
    dsimp only
    split
    · next k uuid hj => exact h.callback hj (ha k uuid hj)
    · exact h

/-- However the list is loaded and however cells are dequeued: as long as the lookup that was
started last for a cell calls back last and finds its user, every cell shows the other
participant of its row when no lookup for it is outstanding. -/
theorem showsOther_run (cu : String) (n : ℕ) {as : List Action}
    (has : Runs.Each (MessageCells.step cu) LastInOrder (start n) as) :
    Runs.Always (MessageCells.step cu) (ShowsOther cu) (start n) as :=
  (Runs.always_of_each (fun _ _ h ha => h.step ha) (coming_start cu n) has).mono
    fun _ h => h.showsOther

end

open PlainKit

/-- Bob's chats with Ann and with Cat. -/
def bobsChats : List (String × Dict) := [("k", chatData ["a", "b"]), ("m", chatData ["b", "c"])]

/-- Ann's and Cat's documents. -/
def annsAndCats : OrderedMap String Dict :=
  (OrderedMap.set ∅ "a" ann.toFireObj).set "c" (makeUserInDB "cat" "c").toFireObj

/-- The only cell is bound to Ann's row and, before her lookup answers, to Cat's. -/
def annThenCat : List Action := [.loaded (some bobsChats), .cellForRowAt 0 0, .cellForRowAt 0 1,
  .callback 0 annsAndCats false, .callback 0 annsAndCats false]

theorem showsOther_run_annThenCat :
    (Runs.run (step "b") (start 1) annThenCat).cells.map MessageCell.nameLabel = [some "cat"] ∧
      Runs.Always (step "b") (ShowsOther "b") (start 1) annThenCat := by
  have hcat : ∃ u, grabUserFromUuid annsAndCats false "c" = .ok u :=
    ⟨makeUserInDB "cat" "c", rfl⟩
  refine ⟨by decide +kernel, showsOther_run "b" 1 ⟨trivial, trivial, trivial, ?_, ?_, trivial⟩⟩
  · intro k uuid hj hlater
    cases hj
    exact absurd rfl (hlater (0, "c") List.mem_cons_self)
  · intro k uuid hj hlater
    cases hj
    exact ⟨nofun, hcat⟩

end JamSession.Chats.MessageCells
