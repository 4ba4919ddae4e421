import JamSession.Sequential.Documents
import JamSession.Firestore.PlainKit

/-! No repeated names and no own name in the social lists. The lists are only ever appended
to by an accept, which looks for the name in one of the two lists it appends to, and by a
block, which does not look. Everything else removes names or stores a list as it is. -/

namespace JamSession.Sequential

open UserController

section

variable [UIKit]

/-- Neither list repeats a name, and the own name `n` is in neither. -/
def ListsWellFormed (n : String) (friends blocked : List String) : Prop :=
  friends.Nodup ∧ blocked.Nodup ∧ n ∉ friends ∧ n ∉ blocked

/-- The condition on an operation about the fetched user `o` in the session of `m`: an accept
that appends is of another user, whose list does not name `m` yet, and a block is of another
user who is not blocked yet. -/
def KeepsWellFormed (_ : Store) (m o : User) : Operation → Prop
  | .accept => o.username ∉ m.friends → o.uuid ≠ m.uuid ∧ m.username ∉ o.friends
  | .block => o.uuid ≠ m.uuid ∧ o.username ∉ m.blocked
  | .send | .ignore | .unfriend => True

variable {s : Store} {m o : User}

omit [UIKit] in
theorem nodup_snoc {ns : List String} {n : String} : (ns ++ [n]).Nodup ↔ n ∉ ns ∧ ns.Nodup := by
  rw [← List.concat_eq_append, List.nodup_concat]

omit [UIKit] in
theorem listsWellFormed_shrinks : Shrinks ListsWellFormed :=
  fun _ _ _ x h => ⟨h.1.erase x, h.2.1, fun hmem => h.2.2.1 (List.mem_of_mem_erase hmem), h.2.2.2⟩

theorem listsWellFormed_addFriend (h : OfUser ListsWellFormed m) (n : String) :
    OfUser ListsWellFormed (m.addFriend n) ↔ n ∉ m.friends ∧ m.username ≠ n := by
  obtain ⟨hf, hb, hnf, hnb⟩ := h
  simp only [OfUser, ListsWellFormed, User.addFriend, nodup_snoc, List.mem_append,
    List.mem_singleton, not_or]
  exact ⟨fun h => ⟨h.1.1, h.2.2.1.2⟩, fun h => ⟨⟨h.1, hf⟩, hb, ⟨hnf, h.2⟩, hnb⟩⟩

theorem listsWellFormed_addBlocked (h : OfUser ListsWellFormed m) (n : String) :
    OfUser ListsWellFormed (m.addBlocked n) ↔ n ∉ m.blocked ∧ m.username ≠ n := by
  obtain ⟨hf, hb, hnf, hnb⟩ := h
  simp only [OfUser, ListsWellFormed, User.addBlocked, nodup_snoc, List.mem_append,
    List.mem_singleton, not_or]
  exact ⟨fun h => ⟨h.2.1.1, h.2.2.2.2⟩, fun h => ⟨hf, ⟨h.1, hb⟩, hnf, hnb, h.2⟩⟩

section Operation

variable (hm : m.Known s.username) (ho : s.Fetched s.username o)
  (hu : ∀ j k n, s.username j = some n → s.username k = some n → j = k)
include hm ho hu

theorem uuid_ne_iff : o.uuid ≠ m.uuid ↔ m.username ≠ o.username := by
  refine not_congr ⟨fun h => (ho.known.username_eq hm h).symm, fun h => ?_⟩
  exact hu _ _ _ ho.known (h ▸ hm)

/-- The lists an operation appends to stay well formed exactly under the condition. -/
theorem keeps_listsWellFormed_iff (hs : EachDocument ListsWellFormed s)
    (hmem : OfUser ListsWellFormed m) (op : Operation) :
    Keeps ListsWellFormed s m o op ↔ KeepsWellFormed s m o op := by
  have hne := uuid_ne_iff hm ho hu
  cases op with
  | send => exact Iff.rfl
  | accept =>
    have hoa := listsWellFormed_addFriend (hs.fetched ho) m.username
    have hma := listsWellFormed_addFriend hmem o.username
    simp only [Keeps, KeepsWellFormed]
    refine imp_congr_right fun hf => ?_
    rw [hoa, hma, hne, ne_comm (a := o.username)]
    split_ifs
    · exact ⟨fun h => ⟨h.2.2, (h.1 h.2.2).1⟩, fun h => ⟨fun _ => ⟨h.2, h.1⟩, hf, h.1⟩⟩
    · exact and_comm
  | ignore => exact Iff.rfl
  | unfriend => exact Iff.rfl
  | block =>
    have hm' := (unfriendUser_keeps listsWellFormed_shrinks hm ho hs hmem).2
    have hsame : (unfriendUser m o).currentUser.username = m.username ∧
        (unfriendUser m o).currentUser.blocked = m.blocked := by
      unfold unfriendUser
      split_ifs <;> exact ⟨rfl, rfl⟩
    simp only [Keeps, KeepsWellFormed]
    rw [listsWellFormed_addBlocked hm', hsame.1, hsame.2, hne]
    exact and_comm

end Operation

/-! ### Runs -/

theorem listsWellFormed_step_iff {s : State} (hs : AllLists ListsWellFormed s) (a : Action) :
    EachDocument ListsWellFormed (step s a).store ↔ OnCall KeepsWellFormed s a := by
  refine (hs.documents_step_iff listsWellFormed_shrinks a).trans ?_
  have hk := hs.wellKept
  refine onCall_congr fun c op q m o _ hm ho => ?_
  exact keeps_listsWellFormed_iff (hk.sessions c m hm) (hk.coherent.fetched ho) hk.unique
    hs.documents (hs.sessions c m hm) op

theorem AllLists.step_of_keepsWellFormed {s : State} (hs : AllLists ListsWellFormed s) {a : Action}
    (h : OnCall KeepsWellFormed s a) : AllLists ListsWellFormed (step s a) := by
  have hk := hs.wellKept
  refine hs.preserved listsWellFormed_shrinks
    ((hs.documents_step_iff listsWellFormed_shrinks a).mp ((listsWellFormed_step_iff hs a).mpr h)) ?_
  rintro c op q m o rfl hm ho rfl hf
  have hself := ((onCall_iff hm ho).mp h hf).1
  exact (listsWellFormed_addFriend (hs.sessions c m hm) o.username).mpr
    ⟨hf, (uuid_ne_iff (hk.sessions c m hm) (hk.coherent.fetched ho) hk.unique).mp hself⟩

/-- From users with empty lists, every document is well formed in every state of a run if and
only if every operation of the run meets its condition. -/
theorem listsWellFormed_iff_steps {s : State} (hs : Initial s) (hb : ∀ k, s.store.blocked k = [])
    (as : List Action) : Runs.Always step (fun s => EachDocument ListsWellFormed s.store) s as ↔
      Runs.Each step (OnCall KeepsWellFormed) s as := by
  apply Runs.always_iff_each (I := AllLists ListsWellFormed)
  · exact fun s h => h.documents
  · exact fun s a h => listsWellFormed_step_iff h a
  · exact fun s a h => h.step_of_keepsWellFormed
  · exact hs.allLists fun k n _ => by simp [ListsWellFormed, hb]

end

open PlainKit

/-- Ann and Bob send each other a request. Bob accepts, and Ann, whose session does not know
of it, accepts as well. -/
def crossingRequests : List Action :=
  [.login 0 "a", .login 1 "b", .call 0 .send (.byUsername "bob"),
    .call 1 .send (.byUsername "ann"), .load 1, .call 1 .accept (.byUuid "a"), .load 0,
    .call 0 .accept (.byUuid "b")]

theorem crossingRequests_repeated :
    let s := signedUp [("a", "ann"), ("b", "bob")]
    Initial s ∧ (∀ k, s.store.blocked k = []) ∧
      (Runs.run step s crossingRequests).store.friends "b" = ["ann", "ann"] ∧
      ¬ Runs.Always step (fun s => EachDocument ListsWellFormed s.store) s crossingRequests := by
  intro s
  have hb : (Runs.run step s crossingRequests).store.friends "b" = ["ann", "ann"] := by decide
  refine ⟨initial_signedUp (by decide), signedUp_blocked _, hb, fun h => ?_⟩
  have := (h.last "b" "bob" (by decide)).1
  rw [hb] at this
  exact absurd this (by decide)

theorem listsWellFormed_iff_steps_crossingRequests :
    Runs.Always step (fun s => EachDocument ListsWellFormed s.store)
        (signedUp [("a", "ann"), ("b", "bob")]) crossingRequests ↔
      Runs.Each step (OnCall KeepsWellFormed) (signedUp [("a", "ann"), ("b", "bob")])
        crossingRequests :=
  listsWellFormed_iff_steps (initial_signedUp (by decide)) (signedUp_blocked _) crossingRequests

end JamSession.Sequential
