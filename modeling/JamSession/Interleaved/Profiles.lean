import JamSession.Firestore.PlainKit
import JamSession.Interleaved.Identity

/-! The profile of a user: location, bio, instrument and experience level. Nothing in the
program edits it, but every save rewrites it from a copy that some client read earlier, so
that it stays what the sign-up wrote is a fact about all documents and copies at once. Proved
for every run: a document stays under its own uuid with the username and the profile of its
sign-up, and a lookup by uuid finds it and nothing else. -/

namespace JamSession

open UserController

section

variable [UIKit]

def User.profile (u : User) : String × Option String × String × String :=
  (u.location, u.bio, u.instrument, u.experienceLevel)

/-- The profile is the one a sign-up writes. -/
def User.Unedited (u : User) : Prop := u.profile = (makeUserInDB u.username u.uuid).profile

theorem User.CopyOf.profile {w u : User} (h : w.CopyOf u) : w.profile = u.profile := by
  simp only [User.profile, h.location, h.bio, h.instrument, h.experienceLevel]

/-- A document determines the profile that was encoded in it. -/
theorem User.profile_of_toFireObj {u v : User} (h : u.toFireObj = v.toFireObj) :
    u.profile = v.profile := by
  have hfield : ∀ key, u.toFireObj.string key = v.toFireObj.string key := fun key => by rw [h]
  have hlocation := hfield "location"
  have hbio := hfield "bio"
  have hinstrument := hfield "instrument"
  have hexperience := hfield "experienceLevel"
  simp only [toFireObj_location, toFireObj_bio, toFireObj_instrument, toFireObj_experienceLevel,
    Option.some.injEq] at hlocation hbio hinstrument hexperience
  simp only [User.profile, hlocation, hbio, hinstrument, hexperience]

theorem stable_unedited : Stable User.Unedited := fun _ _ _ _ h => h

theorem makeUserInDB_unedited (username uuid : String) : (makeUserInDB username uuid).Unedited := rfl

/-- Every document is an encoded user with the profile of a sign-up. -/
def Store.Unedited (s : Store) : Prop :=
  ∀ k d, s.users.get? k = some d → ∃ u : User, d = u.toFireObj ∧ u.Unedited

theorem Store.Unedited.fetched {s : Store} (h : s.Unedited) {q : Query} {o : User}
    (ho : q.answer s.users = .ok o) : o.Unedited := by
  have hkey : ∀ field value, grabUser (some (usersWhere s.users field value)) = .ok o →
      o.Unedited := by
    intro field value hg
    obtain ⟨k, d, hk, -, hd⟩ := grabUser_usersWhere hg
    obtain ⟨u, rfl, hu⟩ := h k d hk
    show o.profile = _
    rw [(User.fromStringAny_toFireObj hd).profile, hu]
    rfl
  cases q with
  | byUsername username => exact hkey _ _ ho
  | byUuid uuid => exact hkey _ _ ho

theorem Store.Unedited.set {s : Store} (h : s.Unedited) {users : OrderedMap String Dict}
    {uuid : String} {dict : Dict} (hd : ∃ u : User, dict = u.toFireObj ∧ u.Unedited)
    (hs : users = s.users.set uuid dict) : ∀ k d, users.get? k = some d →
      ∃ u : User, d = u.toFireObj ∧ u.Unedited := by
  intro k d hk
  rw [hs, OrderedMap.get?_set] at hk
  split_ifs at hk with hkey
  · rwa [← Option.some.inj hk]
  · exact h k d hk

/-- When both conversions of pictures succeed, every encoded user can be read. -/
theorem User.fromStringAny_toFireObj_isSome (hjpeg : ∀ i, (UIKit.jpegData i).isSome)
    (hdata : ∀ d, (UIKit.ofData d).isSome) {u : User} (hbio : u.bio.isSome) :
    (User.fromStringAny u.toFireObj).isSome := by
  obtain ⟨bio, hbio⟩ := Option.isSome_iff_exists.mp hbio
  obtain ⟨data, hjpeg⟩ := Option.isSome_iff_exists.mp (hjpeg u.profilePic)
  obtain ⟨pfp, hdata⟩ := Option.isSome_iff_exists.mp (hdata data)
  simp [User.fromStringAny, hbio, hjpeg, hdata]

end

namespace Interleaved

open JamSession.Sequential

section

variable [UIKit]

/-! ### Copies with their profiles -/

def TaskUnedited : Task → Prop
  | .answered _ _ _ (.ok u) => u.Unedited
  | .deleting k | .deleted k _ => k.user.Unedited
  | .writing _ w => w.Stores User.Unedited
  | _ => True

structure Profiled (s : State) : Prop where
  docs : s.store.Unedited
  session : ∀ c m, s.session c = some m → m.Unedited
  tasks : ∀ t ∈ s.tasks, TaskUnedited t

section Profiled

variable {s s' : State} {a : Action}

/-- The saved documents are copies of the profiles they were read with, or a sign-up's. -/
theorem Profiled.docs_next (h : Profiled s) (hi : Identified s) (hn : Next s a s') :
    s'.store.Unedited := by
  obtain hsame | ⟨i, k, uuid, dict, -, ht, hset⟩ | ⟨i, flow, u, -, ht, hset⟩ := users_next hn
  · unfold Store.Unedited
    rw [hsame]
    exact h.docs
  · obtain ⟨u, hd, -, hu⟩ : ∃ u : User, dict = u.toFireObj ∧ u.uuid = uuid ∧ u.Unedited :=
      h.tasks _ (List.mem_of_getElem? ht)
    exact h.docs.set ⟨u, hd, hu⟩ hset
  · obtain ⟨username, hu, -⟩ : ∃ username, u = makeUserInDB username u.uuid ∧
        s.accounts u.uuid = some username := hi.tasks _ (List.mem_of_getElem? ht)
    exact h.docs.set ⟨u, rfl, hu ▸ makeUserInDB_unedited username u.uuid⟩ hset

theorem Profiled.tasks_next (h : Profiled s) (hn : Next s a s') :
    ∀ t ∈ s'.tasks, TaskUnedited t := by
  intro t hin
  rcases mem_tasks_next hn hin with hold | hadd
  · exact h.tasks t hold
  cases hadd with
  | answered i err flow c p q ht result hr =>
    cases result with
    | error e => trivial
    | ok u =>
      show u.Unedited
      exact h.docs.fetched (hr u rfl)
  | deleting i err k ht hm hop =>
    have ho : k.user.Unedited := h.tasks _ (List.mem_of_getElem? ht)
    exact ho
  | deleted i err k ht =>
    have ho : k.user.Unedited := h.tasks _ (List.mem_of_getElem? ht)
    exact ho
  | issued i err k ht hm hop w hw =>
    have ho : k.user.Unedited := h.tasks _ (List.mem_of_getElem? ht)
    exact (perform_keeps stable_unedited (h.session _ _ hm) ho k.op).writes w hw
  | completed i err err' k ht m hm w hw =>
    have ho : k.user.Unedited := h.tasks _ (List.mem_of_getElem? ht)
    exact (acceptDeleted_keeps stable_unedited (h.session _ _ hm) ho err').writes w hw
  | _ => trivial

theorem Profiled.session_next (h : Profiled s) (hn : Next s a s') :
    ∀ c m, s'.session c = some m → m.Unedited := by
  intro c m hm
  obtain hold | hassigned := session_of_next hn hm
  · exact h.session c m hold
  cases hassigned with
  | loggedIn i err flow c u ht hc =>
    have hu : m.Unedited := h.tasks _ (List.mem_of_getElem? ht)
    exact hu
  | called i err k ht hk hop =>
    have ho : k.user.Unedited := h.tasks _ (List.mem_of_getElem? ht)
    exact (perform_keeps stable_unedited (h.session _ _ hk) ho k.op).currentUser
  | loaded i err flow c answer ht m₀ hm₀ =>
    cases answer <;> exact h.session c m₀ hm₀
  | completed i err err' k ht m₀ hm₀ =>
    have ho : k.user.Unedited := h.tasks _ (List.mem_of_getElem? ht)
    exact (acceptDeleted_keeps stable_unedited (h.session _ m₀ hm₀) ho err').currentUser

theorem Profiled.next (h : Profiled s) (hi : Identified s) (hn : Next s a s') : Profiled s' :=
  ⟨h.docs_next hi hn, h.session_next hn, h.tasks_next hn⟩

end Profiled

/-! ### Uncorrupted documents -/

/-- The fields of a document that no operation may change. -/
def signUpFields : List String :=
  ["username", "uuid", "location", "bio", "instrument", "experienceLevel"]

/-- The document of `k` is what its sign-up wrote, up to the picture and the lists, and the
lookup of `k` finds it, or nobody if it does not exist. -/
structure Uncorrupted (s : State) : Prop where
  key : ∀ k d, s.store.users.get? k = some d → d.string "uuid" = some k
  fields : ∀ k d, s.store.users.get? k = some d → ∃ username, s.accounts k = some username ∧
    ∀ field ∈ signUpFields, d field = (makeUserInDB username k).toFireObj field
  found : ∀ k d, s.store.users.get? k = some d → ∃ u, User.fromStringAny d = some u ∧
    grabUserFromUuid s.store.users false k = .ok u
  missing : ∀ k, s.store.users.get? k = none →
    grabUserFromUuid s.store.users false k = .error .noSuchUser

theorem Profiled.fields {s : State} (h : Profiled s) (hi : Identified s) {k : String} {d : Dict}
    (hd : s.store.users.get? k = some d) : ∃ username, s.accounts k = some username ∧
      ∀ field ∈ signUpFields, d field = (makeUserInDB username k).toFireObj field := by
  obtain ⟨u, rfl, rfl, hname⟩ := hi.coherent k d hd
  obtain ⟨v, hv, hunedited⟩ := h.docs _ _ hd
  have hprofile : u.profile = (makeUserInDB u.username u.uuid).profile := by
    rw [User.profile_of_toFireObj hv, hunedited]
    rfl
  simp only [User.profile, Prod.mk.injEq] at hprofile
  obtain ⟨hlocation, hbio, hinstrument, hexperience⟩ := hprofile
  refine ⟨u.username, hname, ?_⟩
  simp only [signUpFields, List.forall_mem_cons, User.toFireObj, hlocation, hbio, hinstrument,
    hexperience]
  simp [makeUserInDB, User.init]

/-- A document that is an encoded user can be read, when the two conversions of pictures
succeed; the lookup of its key answers with that user. -/
theorem Profiled.found {s : State} (hjpeg : ∀ i, (UIKit.jpegData i).isSome)
    (hdata : ∀ d, (UIKit.ofData d).isSome) (h : Profiled s) (hi : Identified s) {k : String}
    {d : Dict} (hd : s.store.users.get? k = some d) : ∃ u, User.fromStringAny d = some u ∧
      grabUserFromUuid s.store.users false k = .ok u := by
  obtain ⟨v, rfl, hv⟩ := h.docs _ _ hd
  have hbio : v.bio = some "bio" := (Prod.ext_iff.mp (Prod.ext_iff.mp hv).2).1
  obtain ⟨u, hu⟩ := Option.isSome_iff_exists.mp
    (User.fromStringAny_toFireObj_isSome hjpeg hdata (u := v) (by rw [hbio]; rfl))
  refine ⟨u, hu, ?_⟩
  simp [grabUserFromUuid, hi.coherent.usersWhere_uuid, hd, grabUser, hu]

theorem Profiled.uncorrupted {s : State} (hjpeg : ∀ i, (UIKit.jpegData i).isSome)
    (hdata : ∀ d, (UIKit.ofData d).isSome) (h : Profiled s) (hi : Identified s) :
    Uncorrupted s where
  key k d hd := by
    obtain ⟨u, rfl, rfl, -⟩ := hi.coherent k d hd
    exact u.toFireObj_uuid
  fields k d hd := h.fields hi hd
  found k d hd := h.found hjpeg hdata hi hd
  missing k hk := by
    simp [grabUserFromUuid, hi.coherent.usersWhere_uuid, hk, grabUser]

/-! ### Runs -/

theorem Start.profiled {s : State} (h : Start s) (hd : s.store.Unedited) : Profiled s where
  docs := hd
  session c m hm := by
    rw [h.session] at hm
    cases hm
  tasks t ht := by
    rw [h.tasks] at ht
    cases ht

/-- In every state of every run each document is stored under its uuid with the username and
the profile of its sign-up, and is what the lookup of that uuid finds. -/
theorem uncorrupted_run (hjpeg : ∀ i, (UIKit.jpegData i).isSome)
    (hdata : ∀ d, (UIKit.ofData d).isSome) {s : State} (hs : Start s) (hd : s.store.Unedited)
    (as : List Action) : Runs.Always step Uncorrupted s as := by
  have hrun := Runs.always_of_invariant (I := fun s => Profiled s ∧ Identified s ∧ AllIssued s)
    (fun s a h => ⟨h.1.next h.2.1 (next_step s a), h.2.1.next h.2.2 (next_step s a),
      h.2.2.next (next_step s a)⟩) ⟨hs.profiled hd, hs.identified, hs.allIssued⟩ as
  exact hrun.mono fun s h => h.1.uncorrupted hjpeg hdata h.2.1

end

open PlainKit

/-- Dan signs up in the collection of Ann, Bob and Cat, and client 0 logs in as him and
blocks Ann. -/
def blockedAfterSignUp : List Action := List.flatten [
  [.signUp 0 "dan"], advances 0 2, [.createUser 0 "d"], advances 0 1,
  [.logIn 0 "d"], advances 0 2, [.block 0 "ann"], advances 0 3]

theorem uncorrupted_run_blockedAfterSignUp :
    (Runs.run step abc blockedAfterSignUp).store.blocked "d" = ["ann"] ∧
      Runs.Always step Uncorrupted abc blockedAfterSignUp := by
  refine ⟨by decide +kernel, uncorrupted_run (fun _ => rfl) (fun _ => rfl)
    (initial_signedUp _).start (fun k d hd => ?_) blockedAfterSignUp⟩
  obtain ⟨n, -, rfl⟩ := signedUp_get? hd
  exact ⟨_, rfl, rfl⟩

end Interleaved

end JamSession
