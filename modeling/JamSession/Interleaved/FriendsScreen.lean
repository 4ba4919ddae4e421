import JamSession.Interleaved.Identity
import JamSession.Interleaved.Requests
import JamSession.Firestore.PlainKit

/-! The requests section of the friends screen. The table shows the requests as they were at
its last reload, and a tap on a row takes the request at that index of the list as it is now.
The list changes under the table: a load appends to it, which moves no row, and the removal
that follows an ignore or the acknowledgement of an accept comes without a reload, or after
it. A row is safe as long as nothing is removed at or before it, unless the entry that takes
its place is of the same sender. -/

namespace JamSession.Interleaved

open UserController JamSession.Sequential

section

variable [UIKit]

/-- The friends screen of a client over the friend system. -/
structure Screen where
  system : State
  shown : List FriendRequest

inductive ScreenAction
  | reloadData
  | system (a : Action)

/-- `numberOfRowsInSection` and `cellForRowAt` read the current list when the table reloads. -/
def screenStep (c : ℕ) (s : Screen) : ScreenAction → Screen
  | .reloadData => { s with shown := requests s.system c }
  | .system a => { s with system := step s.system a }

/-- A tap on a row looks up the sender of the request it shows, so it does not index out of
range, and whoever that lookup finds, for `acceptFriendRequest`, is the sender. -/
structure TapsShown (c : ℕ) (s : Screen) : Prop where
  tap : ∀ (i : ℕ) (r : FriendRequest), s.shown[i]? = some r → step s.system (.addFwen c i) =
    s.system.start fun flow => .asked flow c (.call .accept) (.byUuid r.initialUser)
  found : ∀ (i : ℕ) (r : FriendRequest) (o : User), s.shown[i]? = some r →
    (Query.byUuid r.initialUser).answer s.system.store.users = .ok o → o.uuid = r.initialUser

/-- The removal of `r` leaves the sender in every shown row from the first entry `r` on: the
entry after it is of the same sender. -/
def RowsKept (shown live : List FriendRequest) (r : FriendRequest) : Prop :=
  ∀ i < shown.length, live.idxOf r ≤ i →
    (live[i + 1]?).map FriendRequest.initialUser = (live[i]?).map FriendRequest.initialUser

/-- The condition on a step: what it removes from the list, it removes below the shown rows. -/
def RemovesBelow (c : ℕ) (s : Screen) : ScreenAction → Prop
  | .reloadData => True
  | .system a => ∀ r ∈ removed c s.system a, RowsKept s.shown (requests s.system c) r

instance (shown live : List FriendRequest) (r : FriendRequest) : Decidable (RowsKept shown live r) :=
  inferInstanceAs (Decidable (∀ i < shown.length, live.idxOf r ≤ i →
    (live[i + 1]?).map FriendRequest.initialUser = (live[i]?).map FriendRequest.initialUser))

instance (c : ℕ) (s : Screen) (a : ScreenAction) : Decidable (RemovesBelow c s a) := by
  cases a with
  | reloadData => exact isTrue trivial
  | system a => exact inferInstanceAs
      (Decidable (∀ r ∈ removed c s.system a, RowsKept s.shown (requests s.system c) r))

/-! ### Rows -/

/-- Every shown row has an entry of its sender at its index. -/
def Agree (shown live : List FriendRequest) : Prop :=
  ∀ (i : ℕ) (r : FriendRequest), shown[i]? = some r → (live[i]?).map FriendRequest.initialUser = some r.initialUser

section Rows

variable {shown live : List FriendRequest} {r : FriendRequest}

omit [UIKit]

theorem agree_self (live : List FriendRequest) : Agree live live := by
  intro i r h
  rw [h]
  rfl

theorem Agree.append (h : Agree shown live) (rs : List FriendRequest) :
    Agree shown (live ++ rs) := by
  intro i r hi
  have hlive := h i r hi
  have hlt : i < live.length := by
    by_contra hge
    rw [List.getElem?_eq_none (by omega)] at hlive
    cases hlive
  rw [List.getElem?_append_left hlt]
  exact hlive

/-- The entries of a list after a removal. -/
theorem getElem?_erase (live : List FriendRequest) (r : FriendRequest) (i : ℕ) :
    (live.erase r)[i]? = if i < live.idxOf r then live[i]? else live[i + 1]? := by
  rw [List.erase_eq_eraseIdx_of_idxOf rfl, List.getElem?_eraseIdx]

/-- A removal keeps the rows exactly if it is below them. -/
theorem Agree.erase_iff (h : Agree shown live) :
    Agree shown (live.erase r) ↔ RowsKept shown live r := by
  constructor
  · intro h' i hi hidx
    have hs : shown[i]? = some shown[i] := List.getElem?_eq_getElem hi
    have hafter := h' i _ hs
    rw [getElem?_erase, if_neg (by omega)] at hafter
    rw [hafter, h i _ hs]
  · intro hk i r' hs
    have hi : i < shown.length := (List.getElem?_eq_some_iff.mp hs).1
    rw [getElem?_erase]
    split_ifs with hidx
    · exact h i r' hs
    · rw [hk i hi (by omega), h i r' hs]

end Rows

/-! ### Taps -/

variable {c : ℕ} {s : Screen}

theorem step_addFwen (s : State) (c i : ℕ) : step s (.addFwen c i) = match (requests s c)[i]? with
    | some r => s.start fun flow => .asked flow c (.call .accept) (.byUuid r.initialUser)
    | none => s := by
  cases hm : s.session c with
  | none => simp [step, requests, hm]
  | some m =>
    rw [requests_eq hm]
    cases hr : m.friendRequests[i]? <;> simp [step, hm, hr]

/-- Taps look up the senders shown exactly if the list agrees with the table. -/
theorem tapsShown_iff (hs : Identified s.system) :
    TapsShown c s ↔ Agree s.shown (requests s.system c) := by
  constructor
  · intro h i r hr
    have htap := h.tap i r hr
    rw [step_addFwen] at htap
    cases hlive : (requests s.system c)[i]? with
    | none =>
      rw [hlive] at htap
      have hnext := congrArg State.next htap
      simp only [State.start] at hnext
      omega
    | some r' =>
      rw [hlive] at htap
      have htasks := congrArg State.tasks htap
      simp only [State.start, List.append_cancel_left_eq, List.cons.injEq, Task.asked.injEq,
        Query.byUuid.injEq, true_and, and_true] at htasks
      exact congrArg some htasks
  · intro h
    refine ⟨fun i r hr => ?_, fun i r o _ ho => hs.coherent.answer_uuid ho⟩
    obtain ⟨r', hr', heq⟩ := Option.map_eq_some_iff.mp (h i r hr)
    rw [step_addFwen, hr', ← heq]

/-! ### Runs -/

/-- The table agrees with the list after a step exactly if the step meets the condition. -/
theorem agree_screenStep_iff (h : Agree s.shown (requests s.system c)) (a : ScreenAction) :
    Agree (screenStep c s a).shown (requests (screenStep c s a).system c) ↔
      RemovesBelow c s a := by
  cases a with
  | reloadData => exact iff_of_true (agree_self _) trivial
  | system a =>
    simp only [screenStep, RemovesBelow]
    obtain ⟨r, hr, hlive⟩ | ⟨hr, rs, hlive⟩ := requests_step c s.system a
    · rw [hlive, h.erase_iff, hr]
      simp
    · rw [hlive, hr]
      exact iff_of_true (h.append rs) (by simp)

/-- Every tap takes the request shown, in every state of a run, if and only if nothing is
removed from the list at or before a shown row. -/
theorem tapsShown_iff_steps {s : State} (hs : Start s) (c : ℕ) (as : List ScreenAction) :
    Runs.Always (screenStep c) (TapsShown c) ⟨s, []⟩ as ↔
      Runs.Each (screenStep c) (RemovesBelow c) ⟨s, []⟩ as := by
  have hid : ∀ (t : Screen) (a : ScreenAction), Identified t.system ∧ AllIssued t.system →
      Identified (screenStep c t a).system ∧ AllIssued (screenStep c t a).system := by
    intro t a ht
    cases a with
    | reloadData => exact ht
    | system a =>
      have hn := next_step t.system a
      exact ⟨ht.1.next ht.2 hn, ht.2.next hn⟩
  apply Runs.always_iff_each (I := fun t => (Identified t.system ∧ AllIssued t.system) ∧
    Agree t.shown (requests t.system c))
  · rintro t ⟨⟨hi, -⟩, ha⟩
    exact (tapsShown_iff hi).mpr ha
  · rintro t a ⟨hi, ha⟩
    rw [tapsShown_iff (hid t a hi).1]
    exact agree_screenStep_iff ha a
  · rintro t a ⟨hi, ha⟩ hC
    exact ⟨hid t a hi, (agree_screenStep_iff ha a).mpr hC⟩
  · exact ⟨⟨hs.identified, hs.allIssued⟩, by simp [Agree]⟩

end

open PlainKit

/-- Ann and Cat send Bob requests, and his client loads them. -/
def twoSenders : List Action := List.flatten [
  [.logIn 0 "a", .logIn 1 "b", .logIn 2 "c"], advances 0 6,
  [.addUserButtonPressed 0 "bob"], advances 0 5, [.addUserButtonPressed 2 "bob"], advances 0 5,
  [.load 1], advances 0 2]

/-- Bob taps Ann's request; the table is reloaded when the accept is called, and then the
delete is acknowledged. -/
def reloadedEarly : List ScreenAction := List.flatten [
  twoSenders.map .system, [.reloadData, .system (.addFwen 1 0)], (advances 0 2).map .system,
  [.reloadData], (advances 0 2).map .system]

theorem reloadedEarly_trap :
    (Runs.run (screenStep 1) ⟨abc, []⟩ reloadedEarly).shown = [⟨"a", "b"⟩, ⟨"c", "b"⟩] ∧
      requests (Runs.run (screenStep 1) ⟨abc, []⟩ reloadedEarly).system 1 = [⟨"c", "b"⟩] ∧
      ¬ Runs.Always (screenStep 1) (TapsShown 1) ⟨abc, []⟩ reloadedEarly := by
  refine ⟨by decide +kernel, by decide +kernel, fun h => ?_⟩
  have hend : TapsShown 1 (Runs.run (screenStep 1) ⟨abc, []⟩ reloadedEarly) := h.last
  -- row 1 shows Cat's request, and there is no entry at that index any more
  have htap := congrArg State.next (hend.tap 1 ⟨"c", "b"⟩ (by decide +kernel))
  exact absurd htap (by decide +kernel)

/-- The table is reloaded after the acknowledgement only. -/
def reloadedLate : List ScreenAction := List.flatten [
  twoSenders.map .system, [.system (.addFwen 1 0)], (advances 0 4).map .system, [.reloadData]]

theorem tapsShown_iff_steps_reloadedLate :
    (Runs.run (screenStep 1) ⟨abc, []⟩ reloadedLate).shown = [⟨"c", "b"⟩] ∧
      Runs.Always (screenStep 1) (TapsShown 1) ⟨abc, []⟩ reloadedLate :=
  ⟨by decide +kernel,
    (tapsShown_iff_steps (initial_signedUp _).start 1 reloadedLate).mpr (by decide +kernel)⟩

end JamSession.Interleaved
