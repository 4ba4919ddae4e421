import JamSession.Controllers.Effects
import JamSession.Firestore.PlainKit

/-! Whether an accept and an unfriend leave both sides changed or both as they were. Each changes
the lists in memory first and saves afterwards, with a return in between: an accept that finds
no request in memory saves the sender's document alone, and an unfriend of somebody who does not
list the current user saves nothing. And each takes away one occurrence, of a name or of a
request, where the lists may hold several. -/

namespace JamSession.UserController

section

variable [UIKit]

/-- The fetched copy as `unfriendUser` leaves it. -/
def unfriendedCopy (currentUser user : User) : User :=
  if user.username ∈ currentUser.friends ∧ currentUser.username ∈ user.friends then
    user.removeFriend currentUser.username
  else user

/-- An accept of `o` by `m` that was acknowledged over the store `s`: both documents list the
other and no request of `o` is left in memory, or both documents and the lists in memory are
as before. The delete itself touches no user document. -/
def AcceptsWhole (s : Store) (m o : User) : Prop :=
  let out := acceptDeleted o m false
  let s' := s.applyAll out.writes
  (o.username ∈ s'.friends m.uuid ∧ m.username ∈ s'.friends o.uuid ∧
    ∀ r ∈ out.currentUser.friendRequests, r.initialUser ≠ o.uuid) ∨
  (s'.users.get? m.uuid = s.users.get? m.uuid ∧ s'.users.get? o.uuid = s.users.get? o.uuid ∧
    out.currentUser.friends = m.friends ∧ out.currentUser.friendRequests = m.friendRequests ∧
    out.currentUser.blocked = m.blocked)

/-- An unfriend of `o` by `m` over the store `s`: no list in memory or in the store names the
other, or nothing has changed. -/
def UnfriendsWhole (s : Store) (m o : User) : Prop :=
  let out := unfriendUser m o
  let s' := s.applyAll out.writes
  (o.username ∉ out.currentUser.friends ∧ m.username ∉ (unfriendedCopy m o).friends ∧
    o.username ∉ s'.friends m.uuid ∧ m.username ∉ s'.friends o.uuid) ∨
  (out.currentUser = m ∧ unfriendedCopy m o = o ∧ s' = s)

/-- The requests of a sender in memory. -/
def requestsFrom (m : User) (uuid : String) : List FriendRequest :=
  m.friendRequests.filter fun r => r.initialUser = uuid

/-- The sender is a friend already, or memory has exactly the request to take away, or it has
none and the stored document lists the sender all the same. -/
def AcceptsFully (s : Store) (m o : User) : Prop :=
  o.username ∈ m.friends ∨ requestsFrom m o.uuid = [⟨o.uuid, m.uuid⟩] ∨
    (requestsFrom m o.uuid = [] ∧ o.username ∈ s.friends m.uuid)

/-- The user is no friend in memory, or is listed there once and lists the current user once, or
does not list the current user and no stored document has either name. -/
def UnfriendsFully (s : Store) (m o : User) : Prop :=
  o.username ∉ m.friends ∨ m.friends.count o.username = 1 ∧
    (o.friends.count m.username = 1 ∨ m.username ∉ o.friends ∧
      o.username ∉ s.friends m.uuid ∧ m.username ∉ s.friends o.uuid)

/-! ### Removing one occurrence -/

omit [UIKit] in
theorem notMem_erase_iff {ns : List String} {n : String} (h : n ∈ ns) :
    n ∉ ns.erase n ↔ ns.count n = 1 := by
  have hpos := List.count_pos_iff.mpr h
  rw [← List.count_eq_zero, List.count_erase_self]
  omega

theorem removeFriend_ne {u : User} {n : String} (h : n ∈ u.friends) : u.removeFriend n ≠ u := by
  intro heq
  have hlen := List.length_erase_add_one h
  rw [show u.friends.erase n = u.friends from congrArg User.friends heq] at hlen
  omega

variable {s : Store} {m o : User}

theorem requestsFrom_eq_nil_iff {uuid : String} :
    requestsFrom m uuid = [] ↔ ∀ r ∈ m.friendRequests, r.initialUser ≠ uuid := by
  simp [requestsFrom, List.filter_eq_nil_iff]

/-- Taking the request away leaves none of its sender exactly if it was the only one. -/
theorem removeRequest_last (h : ⟨o.uuid, m.uuid⟩ ∈ m.friendRequests) :
    (∀ r ∈ m.friendRequests.erase ⟨o.uuid, m.uuid⟩, r.initialUser ≠ o.uuid) ↔
      requestsFrom m o.uuid = [⟨o.uuid, m.uuid⟩] := by
  have hmem : ⟨o.uuid, m.uuid⟩ ∈ requestsFrom m o.uuid := List.mem_filter.mpr ⟨h, by simp⟩
  have hnil : (∀ r ∈ m.friendRequests.erase ⟨o.uuid, m.uuid⟩, r.initialUser ≠ o.uuid) ↔
      (m.friendRequests.erase ⟨o.uuid, m.uuid⟩).filter (fun r => r.initialUser = o.uuid) = [] := by
    simp [List.filter_eq_nil_iff]
  rw [hnil, ← List.erase_filter, List.erase_eq_nil_iff]
  exact ⟨fun he => he.resolve_left (List.ne_nil_of_mem hmem), Or.inr⟩

/-! ### What is stored -/

/-- Saving two users stores the lists of both. -/
theorem friends_saveBoth (s : Store) {u v : User} (hne : u.uuid ≠ v.uuid) :
    (s.applyAll (saveUser u ++ saveData v)).friends v.uuid = v.friends ∧
      (s.applyAll (saveUser u ++ saveData v)).friends u.uuid = u.friends := by
  simp only [Store.applyAll_append, saveData_eq_saveUser, friends_applyAll_saveUser, if_neg hne,
    if_true, and_self]

/-- Saving one leaves the lists of the other. -/
theorem friends_saveOne (s : Store) {u : User} {k : String} (hne : u.uuid ≠ k) :
    (s.applyAll (saveUser u)).friends k = s.friends k ∧
      (s.applyAll (saveUser u)).friends u.uuid = u.friends := by
  simp only [friends_applyAll_saveUser, if_neg (Ne.symm hne), if_true, and_self]

theorem mem_addFriend (u : User) (n : String) : n ∈ (u.addFriend n).friends :=
  List.mem_append_right _ (List.mem_singleton_self n)

theorem addFriend_ne (u : User) (n : String) : (u.addFriend n).friends ≠ u.friends := by
  intro heq
  have hlen := congrArg List.length heq
  simp [User.addFriend] at hlen

/-! ### The two operations -/

theorem acceptsWhole_friend (h : o.username ∈ m.friends) : AcceptsWhole s m o := by
  rw [AcceptsWhole, acceptDeleted_friend h]
  exact Or.inr ⟨rfl, rfl, rfl, rfl, rfl⟩

/-- Both documents are saved, so only the requests are left to decide. -/
theorem acceptsWhole_pending (hne : o.uuid ≠ m.uuid) (h : o.username ∉ m.friends)
    (hr : ⟨o.uuid, m.uuid⟩ ∈ m.friendRequests) :
    AcceptsWhole s m o ↔ requestsFrom m o.uuid = [⟨o.uuid, m.uuid⟩] := by
  obtain ⟨hm, ho⟩ := friends_saveBoth s (u := o.addFriend m.username)
    (v := (m.addFriend o.username).removeRequest ⟨o.uuid, m.uuid⟩) hne
  rw [AcceptsWhole, acceptDeleted_pending h hr, ← removeRequest_last hr]
  constructor
  · rintro (⟨-, -, hlast⟩ | ⟨-, -, hsame, -⟩)
    · exact hlast
    · exact absurd hsame (addFriend_ne m o.username)
  · intro hlast
    exact Or.inl ⟨hm.symm ▸ mem_addFriend m o.username, ho.symm ▸ mem_addFriend o m.username, hlast⟩

/-- The document of the current user is not saved. -/
theorem acceptsWhole_missing (hne : o.uuid ≠ m.uuid) (h : o.username ∉ m.friends)
    (hr : ⟨o.uuid, m.uuid⟩ ∉ m.friendRequests) :
    AcceptsWhole s m o ↔ requestsFrom m o.uuid = [] ∧ o.username ∈ s.friends m.uuid := by
  obtain ⟨hm, ho⟩ := friends_saveOne s (u := o.addFriend m.username) (k := m.uuid) hne
  rw [AcceptsWhole, acceptDeleted_missing h hr, requestsFrom_eq_nil_iff]
  constructor
  · rintro (⟨hstored, -, hlast⟩ | ⟨-, -, hsame, -⟩)
    · exact ⟨hlast, hm ▸ hstored⟩
    · exact absurd hsame (addFriend_ne m o.username)
  · rintro ⟨hlast, hstored⟩
    exact Or.inl ⟨hm.symm ▸ hstored, ho.symm ▸ mem_addFriend o m.username, hlast⟩

theorem acceptsWhole_iff (hne : o.uuid ≠ m.uuid) : AcceptsWhole s m o ↔ AcceptsFully s m o := by
  by_cases h : o.username ∈ m.friends
  · exact iff_of_true (acceptsWhole_friend h) (Or.inl h)
  · by_cases hr : ⟨o.uuid, m.uuid⟩ ∈ m.friendRequests
    · have hsome : requestsFrom m o.uuid ≠ [] :=
        List.ne_nil_of_mem (List.mem_filter.mpr ⟨hr, by simp⟩)
      rw [acceptsWhole_pending hne h hr]
      simp [AcceptsFully, h, hsome]
    · have hnone : requestsFrom m o.uuid ≠ [⟨o.uuid, m.uuid⟩] := by
        intro heq
        exact hr (List.mem_of_mem_filter (heq ▸ List.mem_singleton_self _))
      rw [acceptsWhole_missing hne h hr]
      simp [AcceptsFully, h, hnone]

theorem unfriendsWhole_stranger (h : o.username ∉ m.friends) : UnfriendsWhole s m o := by
  rw [UnfriendsWhole, unfriendUser_stranger h, unfriendedCopy, if_neg fun hboth => h hboth.1]
  exact Or.inr ⟨rfl, rfl, rfl⟩

/-- Both documents are saved, without one occurrence each. -/
theorem unfriendsWhole_mutual (hne : o.uuid ≠ m.uuid) (h : o.username ∈ m.friends)
    (h' : m.username ∈ o.friends) : UnfriendsWhole s m o ↔
      m.friends.count o.username = 1 ∧ o.friends.count m.username = 1 := by
  obtain ⟨hm, ho⟩ := friends_saveBoth s (u := o.removeFriend m.username)
    (v := m.removeFriend o.username) hne
  rw [UnfriendsWhole, unfriendUser_mutual h h', unfriendedCopy, if_pos ⟨h, h'⟩,
    ← notMem_erase_iff h, ← notMem_erase_iff h']
  constructor
  · rintro (⟨hmem, hcopy, -, -⟩ | ⟨hsame, -, -⟩)
    · exact ⟨hmem, hcopy⟩
    · exact absurd hsame (removeFriend_ne h)
  · rintro ⟨hmem, hcopy⟩
    exact Or.inl ⟨hmem, hcopy, hm.symm ▸ hmem, ho.symm ▸ hcopy⟩

/-- Memory changes and nothing is saved. -/
theorem unfriendsWhole_oneSided (h : o.username ∈ m.friends) (h' : m.username ∉ o.friends) :
    UnfriendsWhole s m o ↔ m.friends.count o.username = 1 ∧
      o.username ∉ s.friends m.uuid ∧ m.username ∉ s.friends o.uuid := by
  rw [UnfriendsWhole, unfriendUser_oneSided h h', unfriendedCopy, if_neg fun hboth => h' hboth.2,
    ← notMem_erase_iff h]
  constructor
  · rintro (⟨hmem, -, hstored⟩ | ⟨hsame, -, -⟩)
    · exact ⟨hmem, hstored⟩
    · exact absurd hsame (removeFriend_ne h)
  · rintro ⟨hmem, hstored⟩
    exact Or.inl ⟨hmem, h', hstored⟩

theorem unfriendsWhole_iff (hne : o.uuid ≠ m.uuid) :
    UnfriendsWhole s m o ↔ UnfriendsFully s m o := by
  by_cases h : o.username ∈ m.friends
  · by_cases h' : m.username ∈ o.friends
    · rw [unfriendsWhole_mutual hne h h']
      simp [UnfriendsFully, h, h']
    · have hzero := List.count_eq_zero.mpr h'
      rw [unfriendsWhole_oneSided h h']
      simp [UnfriendsFully, h, h', hzero]
  · exact iff_of_true (unfriendsWhole_stranger h) (Or.inl h)

/-- When the two operations are all or nothing, for every store, current user and fetched copy of
another user. -/
theorem allOrNothing_iff (s : Store) {m o : User} (hne : o.uuid ≠ m.uuid) :
    (AcceptsWhole s m o ↔ AcceptsFully s m o) ∧ (UnfriendsWhole s m o ↔ UnfriendsFully s m o) :=
  ⟨acceptsWhole_iff hne, unfriendsWhole_iff hne⟩

end

/-! ### A request that is gone, and a friend who does not list the user -/

open PlainKit

/-- Ann and a Bob with the given friends. -/
def stored (friends : List String) : Store where
  users := ((∅ : OrderedMap String Dict).set "a" (makeUserInDB "ann" "a").toFireObj).set "b"
    { makeUserInDB "bob" "b" with friends := friends }.toFireObj
  friendRequests _ := ∅

/-- Bob's client has no request of Ann's in memory any more when the delete of its accept is
acknowledged; or Bob lists Ann, in memory and in the store, and Ann does not list Bob. -/
theorem annUnsaved_half :
    ¬ AcceptsWhole (stored []) (makeUserInDB "bob" "b") (makeUserInDB "ann" "a") ∧
    ¬ UnfriendsWhole (stored ["ann"]) ((makeUserInDB "bob" "b").addFriend "ann")
      (makeUserInDB "ann" "a") := by
  rw [acceptsWhole_iff (by decide), unfriendsWhole_iff (by decide)]
  constructor
  · unfold AcceptsFully
    decide +kernel
  · unfold UnfriendsFully
    decide +kernel

/-- Bob has Ann's request, or they are friends. -/
theorem allOrNothing_iff_annAndBob :
    AcceptsWhole (stored []) ((makeUserInDB "bob" "b").addRequests [⟨"a", "b"⟩])
      (makeUserInDB "ann" "a") ∧
    UnfriendsWhole (stored ["ann"]) ((makeUserInDB "bob" "b").addFriend "ann")
      ((makeUserInDB "ann" "a").addFriend "bob") :=
  ⟨(allOrNothing_iff (stored []) (by decide)).1.mpr (Or.inr (Or.inl (by decide))),
    (allOrNothing_iff (stored ["ann"]) (by decide)).2.mpr
      (Or.inr ⟨by decide, Or.inl (by decide)⟩)⟩

end JamSession.UserController
