import JamSession.Sequential.Documents
import JamSession.Firestore.PlainKit

/-! What blocking does. `blockUser` is the only function that touches a blocked list: it
unfriends and appends the name. No function reads the list, so a send goes through whatever
the receiver's list says, and an accept after the block makes a blocked user a friend again.
As long as no accept joins two users across a block, and the name a block removes is listed
once, nobody is both a friend and blocked. -/

namespace JamSession.Sequential

open UserController

section

variable [UIKit]

/-- No friend is blocked. -/
def NoFriendBlocked (_ : String) (friends blocked : List String) : Prop :=
  ∀ x ∈ friends, x ∉ blocked

/-- The condition on an operation about the fetched user `o` in the session of `m`: an accept
that appends joins two users neither of whom blocks the other, and a block removes the only
occurrence of the name. -/
def AvoidsBlocks (_ : Store) (m o : User) : Operation → Prop
  | .accept => o.username ∉ m.friends → o.username ∉ m.blocked ∧ m.username ∉ o.blocked
  | .block => o.username ∉ m.friends.erase o.username
  | .send | .ignore | .unfriend => True

/-- A send stores the request unless the sender's own list names the receiver; the blocked
lists of the two have no part in it. -/
def SendsRegardless (s : State) : Prop :=
  ∀ c q m o, s.session c = some m → q.answer s.store.users = .ok o →
    (step s (.call c .send q)).store = if o.username ∈ m.friends then s.store
      else s.store.apply (.setRequest o.uuid (requestTitle m.uuid o.uuid)
        (FriendRequest.mk m.uuid o.uuid).toFireObj)

theorem sendsRegardless (s : State) : SendsRegardless s := by
  intro c q m o hm ho
  simp only [step, hm, ho, perform, sendFriendRequest]
  split_ifs <;> rfl

variable {s : Store} {m o : User}

omit [UIKit] in
theorem noFriendBlocked_shrinks : Shrinks NoFriendBlocked :=
  fun _ _ _ _ h x hx => h x (List.mem_of_mem_erase hx)

theorem NoFriendBlocked.addFriend (h : OfUser NoFriendBlocked m) {n : String}
    (hn : n ∉ m.blocked) : OfUser NoFriendBlocked (m.addFriend n) := by
  intro x hx
  rcases List.mem_append.mp hx with hx | hx
  · exact h x hx
  · rw [List.mem_singleton.mp hx]
    exact hn

theorem NoFriendBlocked.addBlocked (h : OfUser NoFriendBlocked m) {n : String}
    (hn : n ∉ m.friends) : OfUser NoFriendBlocked (m.addBlocked n) := by
  intro x hx hb
  rcases List.mem_append.mp hb with hb | hb
  · exact h x hx hb
  · rw [List.mem_singleton.mp hb] at hx
    exact hn hx

/-- Under the condition the lists an operation appends to keep friends and blocked apart. -/
theorem keeps_noFriendBlocked (ho : s.Fetched s.username o) (hs : EachDocument NoFriendBlocked s)
    (hmem : OfUser NoFriendBlocked m) {op : Operation} (h : AvoidsBlocks s m o op) :
    Keeps NoFriendBlocked s m o op := by
  cases op with
  | send => trivial
  | accept =>
    intro hf
    have hm' := NoFriendBlocked.addFriend hmem (h hf).1
    have ho' := NoFriendBlocked.addFriend (hs.fetched ho) (h hf).2
    split_ifs
    · exact ⟨fun _ => ho', hm'⟩
    · exact ho'
  | ignore => trivial
  | unfriend => trivial
  | block =>
    simp only [Keeps, unfriendUser]
    split_ifs with hf
    · exact NoFriendBlocked.addBlocked (m := m.removeFriend _) (noFriendBlocked_shrinks _ _ _ _ hmem) h
    · exact NoFriendBlocked.addBlocked (m := m.removeFriend _) (noFriendBlocked_shrinks _ _ _ _ hmem) h
    · exact NoFriendBlocked.addBlocked hmem hf

theorem AllLists.step_of_avoidsBlocks {s : State} (hs : AllLists NoFriendBlocked s) {a : Action}
    (h : OnCall AvoidsBlocks s a) : AllLists NoFriendBlocked (step s a) := by
  have hk := hs.wellKept
  refine hs.preserved noFriendBlocked_shrinks ?_ ?_
  · intro c op q m o ha hm ho
    exact keeps_noFriendBlocked (hk.coherent.fetched ho) hs.documents (hs.sessions c m hm)
      (h c op q m o ha hm ho)
  · rintro c op q m o ha hm ho rfl hf
    exact NoFriendBlocked.addFriend (hs.sessions c m hm) (h c .accept q m o ha hm ho hf).1

/-- In a run without accepts across a block, no stored friend is blocked; sends go through
regardless of the blocked lists. -/
theorem noFriendBlocked_of_steps {s : State} (hs : Initial s) (as : List Action)
    (h : Runs.Each step (OnCall AvoidsBlocks) s as) :
    Runs.Always step (fun s => EachDocument NoFriendBlocked s.store ∧ SendsRegardless s) s as := by
  refine (Runs.always_of_each (I := AllLists NoFriendBlocked)
    (fun s a hs h => hs.step_of_avoidsBlocks h) ?_ h).mono
    fun t ht => ⟨ht.documents, sendsRegardless t⟩
  exact hs.allLists fun k n _ => by simp [NoFriendBlocked]

end

open PlainKit

/-- Bob blocks Ann; she sends him a request all the same, and he accepts it. -/
def acceptBlocked : List Action :=
  [.login 0 "a", .login 1 "b", .call 1 .block (.byUsername "ann"),
    .call 0 .send (.byUsername "bob"), .load 1, .call 1 .accept (.byUuid "a")]

theorem acceptBlocked_befriends :
    let s := signedUp [("a", "ann"), ("b", "bob")]
    Initial s ∧ (Runs.run step s (acceptBlocked.take 3)).store.blocked "b" = ["ann"] ∧
      ((Runs.run step s (acceptBlocked.take 4)).store.friendRequests "b").entries.map Prod.fst =
        ["a to b"] ∧
      ¬ Runs.Always step (fun s => EachDocument NoFriendBlocked s.store) s acceptBlocked := by
  intro s
  refine ⟨initial_signedUp (by decide), by decide, by decide, fun h => ?_⟩
  have := h.last "b" "bob" (by decide) "ann" (by decide)
  exact this (by decide)

/-- Bob accepts Ann's request and then blocks her, and she sends him another one. -/
def acceptedThenBlocked : List Action :=
  [.login 0 "a", .login 1 "b", .call 0 .send (.byUsername "bob"), .load 1,
    .call 1 .accept (.byUuid "a"), .call 1 .block (.byUsername "ann"),
    .call 0 .send (.byUsername "bob")]

theorem noFriendBlocked_acceptedThenBlocked :
    let s := signedUp [("a", "ann"), ("b", "bob")]
    (Runs.run step s (acceptedThenBlocked.take 5)).store.friends "b" = ["ann"] ∧
      (Runs.run step s acceptedThenBlocked).store.friends "b" = [] ∧
      (Runs.run step s acceptedThenBlocked).store.blocked "b" = ["ann"] ∧
      Runs.Always step (fun s => EachDocument NoFriendBlocked s.store ∧ SendsRegardless s)
        s acceptedThenBlocked := by
  intro s
  refine ⟨by decide, by decide, by decide,
    noFriendBlocked_of_steps (initial_signedUp (by decide)) _ ?_⟩
  refine ⟨by simp [OnCall], by simp [OnCall], ?_, by simp [OnCall], ?_, ?_, ?_, trivial⟩
  · exact (onCall_iff rfl rfl).mpr trivial
  · exact (onCall_iff rfl rfl).mpr (by unfold AvoidsBlocks; decide)
  · exact (onCall_iff rfl rfl).mpr (by unfold AvoidsBlocks; decide)
  · exact (onCall_iff rfl rfl).mpr trivial

end JamSession.Sequential
