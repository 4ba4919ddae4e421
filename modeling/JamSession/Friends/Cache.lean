import JamSession.Library.Runs
import JamSession.Controllers.UserController
import JamSession.Firestore.PlainKit

/-! The observer of `User.friends` and the cache `userFriends`. Every change to the list of any
user object starts one lookup a name, whose callbacks append to an array of that run of the
observer, and the array is assigned to the cache as it is when the loop ends. An array is a
value and no callback has run by then, so what is assigned is empty: the users that are found
stay in the array, and the cache never holds anyone. An initializer runs no observer, so a
fetched copy starts none. -/

namespace JamSession.Friends.Cache

open UserController

section

variable [UIKit]

/-- The array `friendds` of one run of the observer, and the names whose lookups have not called
back. `names` is the list that the loop went through, for statements alone. -/
structure Friendds where
  names : List String
  waiting : List String
  users : List User

/-- The callback of the lookup at index `j`. -/
def Friendds.callback (f : Friendds) (j : ℕ) (users : OrderedMap String Dict) (err : Bool) :
    Friendds :=
  match f.waiting[j]? with
  | none => f
  | some fwen =>
    let f := { f with waiting := f.waiting.eraseIdx j }
    match grabUserFromUsername users err fwen with
    | .ok user => { f with users := f.users ++ [user] }
    | .error _ => f

/-- `copies` are the users that the calls fetched, `arrays` those of all runs of the observer. -/
structure State where
  currentUser : User
  copies : List User
  arrays : List Friendds
  userFriends : List User

namespace State

/-- `didSet` of `friends`, for a list that was just set. -/
def didSet (s : State) (friends : List String) : State :=
  let friendds : Friendds := ⟨friends, friends, []⟩
  { s with arrays := s.arrays ++ [friendds], userFriends := friendds.users }

def setCurrent (s : State) (m : User) : State := { s with currentUser := m }.didSet m.friends

def setCopy (s : State) (i : ℕ) (o : User) : State :=
  { s with copies := s.copies.set i o }.didSet o.friends

/-- The completion of an accept of the copy `o`, whose delete succeeded. -/
def accept (s : State) (i : ℕ) (o : User) : State :=
  let m := s.currentUser
  if o.username ∈ m.friends then s
  else
    let s := (s.setCurrent (m.addFriend o.username)).setCopy i (o.addFriend m.username)
    { s with currentUser := (acceptDeleted o m false).currentUser }

def unfriend (s : State) (i : ℕ) (o : User) : State :=
  let m := s.currentUser
  if o.username ∈ m.friends then
    let s := s.setCurrent (m.removeFriend o.username)
    if m.username ∈ o.friends then s.setCopy i (o.removeFriend m.username) else s
  else s

end State

inductive Action
  | fetched (o : User)
  | accept (i : ℕ)
  | unfriend (i : ℕ)
  | callback (i j : ℕ) (users : OrderedMap String Dict) (err : Bool)

/-- `callback i j users err` is the answer of the `j`-th outstanding lookup of the `i`-th array,
over the collection as it is by then. -/
def step (s : State) : Action → State
  | .fetched o => { s with copies := s.copies ++ [o] }
  | .accept i => match s.copies[i]? with
    | some o => s.accept i o
    | none => s
  | .unfriend i => match s.copies[i]? with
    | some o => s.unfriend i o
    | none => s
  | .callback i j users err => match s.arrays[i]? with
    | some f => { s with arrays := s.arrays.set i (f.callback j users err) }
    | none => s

/-- `m` has just logged in. -/
def start (m : User) : State := ⟨m, [], [], []⟩

/-- No lookup is outstanding. -/
def State.Settled (s : State) : Prop := ∀ f ∈ s.arrays, f.waiting = []

/-- With no lookup outstanding, the cache has one user for each of the current user's friends, in
their order. -/
def Follows (s : State) : Prop :=
  s.Settled → s.userFriends.map User.username = s.currentUser.friends

/-- With no lookup outstanding, the current user has no friends. -/
def Friendless (s : State) : Prop := s.Settled → s.currentUser.friends = []

/-! ### What a step does -/

theorem currentUser_accept (s : State) (i : ℕ) (o : User) :
    (s.accept i o).currentUser = (acceptDeleted o s.currentUser false).currentUser := by
  simp only [State.accept]
  split_ifs with h
  · rw [acceptDeleted_friend h]
  · rfl

theorem currentUser_unfriend (s : State) (i : ℕ) (o : User) :
    (s.unfriend i o).currentUser = (unfriendUser s.currentUser o).currentUser := by
  simp only [State.unfriend]
  split_ifs with h h'
  · rw [unfriendUser_mutual h h']
    rfl
  · rw [unfriendUser_oneSided h h']
    rfl
  · rw [unfriendUser_stranger h]

/-- A property of the arrays and the cache that every run of the observer keeps. -/
structure Kept (P : List Friendds → List User → Prop) : Prop where
  didSet : ∀ arrays cache friends, P arrays cache → P (arrays ++ [⟨friends, friends, []⟩]) []

section Kept

variable {P : List Friendds → List User → Prop} {s : State}

theorem Kept.accept (hP : Kept P) (h : P s.arrays s.userFriends) (i : ℕ) (o : User) :
    P (s.accept i o).arrays (s.accept i o).userFriends := by
  simp only [State.accept]
  split_ifs
  · exact h
  · exact hP.didSet _ _ _ (hP.didSet _ _ _ h)

theorem Kept.unfriend (hP : Kept P) (h : P s.arrays s.userFriends) (i : ℕ) (o : User) :
    P (s.unfriend i o).arrays (s.unfriend i o).userFriends := by
  simp only [State.unfriend]
  split_ifs
  · exact hP.didSet _ _ _ (hP.didSet _ _ _ h)
  · exact hP.didSet _ _ _ h
  · exact h

/-- Only the callbacks are left to look at. -/
theorem Kept.step (hP : Kept P) (h : P s.arrays s.userFriends) {a : Action}
    (hcallback : ∀ i j users err f, a = .callback i j users err → s.arrays[i]? = some f →
      P (s.arrays.set i (f.callback j users err)) s.userFriends) :
    P (step s a).arrays (step s a).userFriends := by
  cases a with
  | fetched o => exact h
  | accept i =>
    simp only [Cache.step]
    split
    · exact hP.accept h i _
    · exact h
  | unfriend i =>
    simp only [Cache.step]
    split
    · exact hP.unfriend h i _
    · exact h
  | callback i j users err =>
    simp only [Cache.step]
    split
    · rename_i f hf
      exact hcallback i j users err f rfl hf
    · exact h

end Kept

/-! ### The cache -/

/-- Every run of the observer assigns an array that nothing was appended to. -/
theorem userFriends_step {s : State} (h : s.userFriends = []) (a : Action) :
    (step s a).userFriends = [] :=
  Kept.step (P := fun _ cache => cache = []) ⟨fun _ _ _ _ => rfl⟩ h fun _ _ _ _ _ _ _ => h

/-- After every run the cache follows the friends exactly if there are none to follow. -/
theorem follows_iff (m : User) (as : List Action) :
    Follows (Runs.run step (start m) as) ↔ Friendless (Runs.run step (start m) as) := by
  have hempty : (Runs.run step (start m) as).userFriends = [] :=
    Runs.invariant (I := fun s => s.userFriends = []) (fun s a h => userFriends_step h a)
      (s := start m) rfl as
  refine imp_congr_right fun _ => ?_
  rw [hempty, List.map_nil, eq_comm]

/-! ### What the callbacks find -/

/-- The callbacks of an array have found users for the names that are not outstanding. -/
def Friendds.Accounted (f : Friendds) : Prop :=
  (f.users.map User.username ++ f.waiting).Perm f.names

/-- The lookup that calls back finds somebody. -/
def Finds (s : State) : Action → Prop
  | .callback i j users err => ∀ f fwen, s.arrays[i]? = some f → f.waiting[j]? = some fwen →
      ∃ user, grabUserFromUsername users err fwen = .ok user
  | _ => True

theorem Friendds.Accounted.callback {f : Friendds} (h : f.Accounted) {j : ℕ}
    {users : OrderedMap String Dict} {err : Bool}
    (hfinds : ∀ fwen, f.waiting[j]? = some fwen →
      ∃ user, grabUserFromUsername users err fwen = .ok user) :
    (f.callback j users err).Accounted := by
  unfold Friendds.callback
  split
  · exact h
  · rename_i fwen hj
    obtain ⟨user, huser⟩ := hfinds fwen hj
    obtain ⟨hlt, rfl⟩ := List.getElem?_eq_some_iff.mp hj
    have hperm : f.waiting.Perm (f.waiting[j] :: f.waiting.eraseIdx j) :=
      (List.getElem_cons_eraseIdx_perm hlt).symm
    simp only [huser]
    show ((f.users ++ [user]).map User.username ++ f.waiting.eraseIdx j).Perm f.names
    rw [List.map_append, List.map_singleton, grabUserFromUsername_username huser,
      List.append_assoc, List.singleton_append]
    exact (hperm.symm.append_left _).trans h

theorem accounted_step {s : State} {a : Action} (h : ∀ f ∈ s.arrays, f.Accounted)
    (hfinds : Finds s a) : ∀ f ∈ (step s a).arrays, f.Accounted := by
  refine Kept.step (P := fun arrays _ => ∀ f ∈ arrays, f.Accounted) ⟨?_⟩ h ?_
  · intro arrays cache friends h f hf
    rcases List.mem_append.mp hf with hf | hf
    · exact h f hf
    · rw [List.mem_singleton.mp hf]
      exact List.Perm.refl _
  · rintro i j users err g rfl hg f hf
    rcases List.mem_or_eq_of_mem_set hf with hf | rfl
    · exact h f hf
    · exact (h g (List.mem_of_getElem? hg)).callback fun fwen hj => hfinds g fwen hg hj

/-- If every lookup finds its user, each array has one user for each name of its list in the end,
in the order of the callbacks; the cache is not told. -/
theorem arrays_filled (m : User) {as : List Action} (has : Runs.Each step Finds (start m) as)
    (hsettled : (Runs.run step (start m) as).Settled) :
    ∀ f ∈ (Runs.run step (start m) as).arrays, (f.users.map User.username).Perm f.names := by
  have hacc := Runs.run_of_each (I := fun s => ∀ f ∈ s.arrays, f.Accounted)
    (fun s a h hC => accounted_step h hC) (s := start m) (by simp [start]) has
  intro f hf
  have hperm := hacc f hf
  rwa [Friendds.Accounted, hsettled f hf, List.append_nil] at hperm

end

/-! ### Bob accepts Ann -/

open PlainKit

/-- Bob accepts Ann, and the lookups that both changes start call back. -/
def acceptsAnn : List Action :=
  let users : OrderedMap String Dict := ((∅ : OrderedMap String Dict).set "a"
    (makeUserInDB "ann" "a").toFireObj).set "b" (makeUserInDB "bob" "b").toFireObj
  [.fetched (makeUserInDB "ann" "a"), .accept 0, .callback 0 0 users false,
    .callback 1 0 users false]

theorem acceptsAnn_uncached :
    ¬ Follows (Runs.run step (start (makeUserInDB "bob" "b")) acceptsAnn) := by
  intro h
  have hsettled : (Runs.run step (start (makeUserInDB "bob" "b")) acceptsAnn).Settled := by
    have hall : ∀ f ∈ (Runs.run step (start (makeUserInDB "bob" "b")) acceptsAnn).arrays,
        f.waiting = [] := by decide +kernel
    exact hall
  exact absurd (h hsettled) (by decide +kernel)

/-- Bob, a friend of Cat's. -/
def catsFriend : User := (makeUserInDB "bob" "b").addFriend "cat"

/-- He accepts Ann, and the lookup of Ann calls back before that of Cat. -/
def otherOrder : List Action :=
  let users : OrderedMap String Dict := (((∅ : OrderedMap String Dict).set "a"
    (makeUserInDB "ann" "a").toFireObj).set "b" catsFriend.toFireObj).set "c"
      (makeUserInDB "cat" "c").toFireObj
  [.fetched (makeUserInDB "ann" "a"), .accept 0, .callback 0 1 users false,
    .callback 0 0 users false, .callback 1 0 users false]

theorem arrays_filled_otherOrder :
    (Runs.run step (start catsFriend) otherOrder).arrays.map Friendds.names =
        [["cat", "ann"], ["bob"]] ∧
      (Runs.run step (start catsFriend) otherOrder).arrays.map
          (fun f => f.users.map User.username) = [["ann", "cat"], ["bob"]] ∧
      ∀ f ∈ (Runs.run step (start catsFriend) otherOrder).arrays,
        (f.users.map User.username).Perm f.names := by
  refine ⟨by decide +kernel, by decide +kernel,
    arrays_filled _ ⟨trivial, trivial, ?_, ?_, ?_, trivial⟩ ?_⟩
  · intro f fwen hf hwaiting
    cases hf
    cases hwaiting
    exact ⟨makeUserInDB "ann" "a", rfl⟩
  · intro f fwen hf hwaiting
    cases hf
    cases hwaiting
    exact ⟨makeUserInDB "cat" "c", rfl⟩
  · intro f fwen hf hwaiting
    cases hf
    cases hwaiting
    exact ⟨catsFriend, rfl⟩
  · have hall : ∀ f ∈ (Runs.run step (start catsFriend) otherOrder).arrays,
        f.waiting = [] := by decide +kernel
    exact hall

end JamSession.Friends.Cache
