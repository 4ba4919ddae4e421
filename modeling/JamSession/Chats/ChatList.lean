import JamSession.Chats.OneChat
import JamSession.Controllers.UserController

/-! The list of chats. A row is one of the chats that `getNumberofChats` loaded; selecting it
looks up the other participant by position and presents a chat screen for the two, which then
searches the chats of the current user once more, by membership. The two searches meet in one
document if no earlier document has the other participant. -/

namespace JamSession.Chats

open UserController

section

variable [UIKit]

/-- The answer of a query for the chats of the user `uuid`. -/
def chatsOf (s : State) (uuid : String) : List (String × Dict) :=
  s.chats.select fun _ d => arrayContains uuid d

/-- The completion of the query of `getNumberofChats`; `none` is an answer with an error. -/
def getNumberofChats (chats : List (List String)) :
    Option (List (String × Dict)) → List (List String)
  | none => chats
  | some documents => chats ++ documents.filterMap fun e => chatUsers e.2

/-- The classes of the scenes of `borp.storyboard` that have an identifier. -/
inductive SceneClass
  | eventQuickLookViewController
  | chatViewController
  | searchEventsViewController
  | tabBarController

/-- `instantiateViewController(identifier:)` on `borp.storyboard`; it traps on any other
identifier. -/
def instantiateViewController : String → Option SceneClass
  | "quickLook" => some .eventQuickLookViewController
  | "chatVC" => some .chatViewController
  | "searchEvents" => some .searchEventsViewController
  | "tabbar" => some .tabBarController
  | _ => none

inductive Selection
  | trap
  | nothing
  | presented (targetUser : User)

/-- The completion of the lookup of a row's other participant. -/
def grabbed (identifier : String) : Except ManErr User → Selection
  | .error _ => .nothing
  | .ok user => match instantiateViewController identifier with
    | some .chatViewController => .presented user
    | _ => .trap

/-- `didSelectRowAt`, with the lookup that its two branches start. -/
def didSelectRowAt (currentUser : Option User) (chats : List (List String)) (row : ℕ)
    (lookup : String → Except ManErr User) : Selection :=
  match currentUser with
  | none => .nothing
  | some cu => match chats[row]? with
    | none => .trap
    | some users =>
      if users.idxOf? cu.uuid = some 1 then match users[0]? with
        | none => .trap
        | some uuid => grabbed "ppchat" (lookup uuid)
      else if users.idxOf? cu.uuid = some 0 then match users[1]? with
        | none => .trap
        | some uuid => grabbed "chatVC" (lookup uuid)
      else .nothing

/-- A new chat screen `v` for the two users runs `loadChat`, and its query succeeds. -/
def opened (s : State) (v : ℕ) (currentUser targetUser : String) : State :=
  Runs.run step
    { s with screens := Function.update s.screens v ⟨currentUser, some targetUser, none⟩ }
    [.loadChat v, .advance s.tasks.length false, .advance s.tasks.length false]

/-- Selecting row `i`, which came from the document `id` of two users, presents a chat screen for
the current user and the other one, and the screen attaches to that document. -/
def RowOpens (s : State) (users : OrderedMap String Dict) (err : Bool) (cu : User) (v i : ℕ)
    (id : String) (d : Dict) : Prop :=
  ∃ target, didSelectRowAt (some cu) (getNumberofChats [] (some (chatsOf s cu.uuid))) i
      (grabUserFromUuid users err) = .presented target ∧
    (chatUsers d = some [cu.uuid, target.uuid] ∨ chatUsers d = some [target.uuid, cu.uuid]) ∧
    ((opened s v cu.uuid target.uuid).screens v).docReference = some id

/-- The condition on a row: the current user is the first participant, the lookup of the second
one finds them, and no earlier row has the second one. -/
def OpensItself (s : State) (users : OrderedMap String Dict) (err : Bool) (cu : User) (i : ℕ)
    (d : Dict) : Prop :=
  ∃ b target, chatUsers d = some [cu.uuid, b] ∧ grabUserFromUuid users err b = .ok target ∧
    ∀ j < i, ∀ e, (chatsOf s cu.uuid)[j]? = some e → ¬ HasUser e.2 b

/-! ### The chat screen -/

theorem docReference_createNewChat (s : State) (v : ℕ) (answer : List (String × Dict)) :
    (createNewChat s v answer).screens = s.screens := by
  unfold createNewChat
  split <;> rfl

/-- After its query is answered, a fresh screen refers to the first chat of the answer that has
the target user, or to nothing. -/
theorem docReference_loadChatAnswered {s : State} {v : ℕ} (hv : (s.screens v).docReference = none)
    (documents : List (String × Dict)) :
    ((loadChatAnswered s v (some documents)).screens v).docReference =
      chatWith (s.screens v).targetUser documents := by
  simp only [loadChatAnswered]
  split_ifs with hlen
  · rw [docReference_createNewChat, hv, List.length_eq_zero_iff.mp hlen]
    rfl
  · cases hfind : chatWith (s.screens v).targetUser documents with
    | some id => simp [State.refer]
    | none => rw [docReference_createNewChat, hv]

theorem docReference_opened (s : State) (v : ℕ) (currentUser targetUser : String) :
    ((opened s v currentUser targetUser).screens v).docReference =
      chatWith (some targetUser) (chatsOf s currentUser) := by
  have hdrop : ∀ t : Task, (s.tasks ++ [t]).eraseIdx s.tasks.length = s.tasks := fun t => by
    simp [List.eraseIdx_append_of_length_le]
  simp [opened, Runs.run, step, loadChat, State.add, State.drop, proceed, hdrop,
    docReference_loadChatAnswered, chatsOf]

/-- In the answer, row `i` is the first one with the target user exactly if it has that user and
no earlier row does. -/
theorem chatWith_eq_iff {s : State} {uuid target id : String} {d : Dict} {i : ℕ}
    (hi : (chatsOf s uuid)[i]? = some (id, d)) :
    chatWith (some target) (chatsOf s uuid) = some id ↔
      HasUser d target ∧ ∀ j < i, ∀ e, (chatsOf s uuid)[j]? = some e → ¬ HasUser e.2 target := by
  simp only [chatWith, Option.map_eq_some_iff, List.find?_eq_some_iff_getElem, any_chatUsers]
  constructor
  · rintro ⟨e, ⟨hhas, k, hk, rfl, hfirst⟩, rfl⟩
    obtain rfl : k = i := s.chats.select_index (List.getElem?_eq_getElem hk) hi rfl
    rw [List.getElem?_eq_getElem hk, Option.some.injEq] at hi
    rw [hi] at hhas
    refine ⟨hhas, fun j hj e he => ?_⟩
    obtain ⟨hj', rfl⟩ := List.getElem?_eq_some_iff.mp he
    have hno := hfirst j hj
    rwa [Bool.not_eq_true', ← Bool.not_eq_true, any_chatUsers] at hno
  · rintro ⟨hhas, hfirst⟩
    obtain ⟨hi', he⟩ := List.getElem?_eq_some_iff.mp hi
    refine ⟨(id, d), ⟨hhas, i, hi', he, fun j hj => ?_⟩, rfl⟩
    rw [Bool.not_eq_true', ← Bool.not_eq_true, any_chatUsers]
    exact hfirst j hj _ (List.getElem?_eq_getElem (hj.trans hi'))

/-! ### The selected row -/

/-- The rows are the documents of the answer, one for one. -/
theorem getNumberofChats_row {s : State} (hs : Known s) {uuid id : String} {d : Dict} {i : ℕ}
    (hi : (chatsOf s uuid)[i]? = some (id, d)) :
    (getNumberofChats [] (some (chatsOf s uuid)))[i]? = chatUsers d := by
  have hall : ∀ e ∈ chatsOf s uuid, chatUsers e.2 = some ((chatUsers e.2).getD []) := by
    rintro ⟨k, e⟩ he
    obtain ⟨x, y, rfl⟩ := hs.chats k e (s.chats.mem_select.mp he).1
    simp
  obtain ⟨x, y, rfl⟩ := hs.chats id d (s.chats.mem_select.mp (List.mem_of_getElem? hi)).1
  rw [getNumberofChats, List.nil_append, List.filterMap_eq_map_iff_forall_eq_some.mpr hall,
    List.getElem?_map, hi]
  simp

/-- The lookup of the second participant, when the current user is the first one. -/
theorem didSelectRowAt_first {cu : User} {chats : List (List String)} {row : ℕ} {b : String}
    (h : chats[row]? = some [cu.uuid, b]) (lookup : String → Except ManErr User) :
    didSelectRowAt (some cu) chats row lookup = grabbed "chatVC" (lookup b) := by
  have hidx : [cu.uuid, b].idxOf? cu.uuid = some 0 := by simp [List.idxOf?_cons]
  simp [didSelectRowAt, h, hidx]

/-- The lookup of the first participant, when the current user is the second one only. -/
theorem didSelectRowAt_second {cu : User} {chats : List (List String)} {row : ℕ} {a : String}
    (ha : a ≠ cu.uuid) (h : chats[row]? = some [a, cu.uuid])
    (lookup : String → Except ManErr User) :
    didSelectRowAt (some cu) chats row lookup = grabbed "ppchat" (lookup a) := by
  have hidx : [a, cu.uuid].idxOf? cu.uuid = some 1 := by simp [List.idxOf?_cons, ha]
  simp [didSelectRowAt, h, hidx]

/-- A chat screen is presented from the scene that there is. -/
theorem grabbed_chatVC {r : Except ManErr User} {target : User} :
    grabbed "chatVC" r = .presented target ↔ r = .ok target := by
  cases r <;> simp [grabbed, instantiateViewController]

/-- The storyboard has no scene `ppchat`. -/
theorem grabbed_ppchat (r : Except ManErr User) (target : User) :
    grabbed "ppchat" r ≠ .presented target := by
  cases r <;> simp [grabbed, instantiateViewController]

theorem rowOpens_iff {s : State} (hs : Known s) (users : OrderedMap String Dict) (err : Bool)
    (cu : User) (v : ℕ) {i : ℕ} {id : String} {d : Dict}
    (hi : (chatsOf s cu.uuid)[i]? = some (id, d)) :
    RowOpens s users err cu v i id d ↔ OpensItself s users err cu i d := by
  have hrow := getNumberofChats_row hs hi
  obtain ⟨hd, hcu⟩ := s.chats.mem_select.mp (List.mem_of_getElem? hi)
  obtain ⟨x, y, rfl⟩ := hs.chats id d hd
  rw [chatUsers_chatData] at hrow
  simp only [RowOpens, OpensItself, docReference_opened, chatWith_eq_iff hi, chatUsers_chatData,
    Option.some.injEq]
  by_cases hx : x = cu.uuid
  · subst hx
    simp only [didSelectRowAt_first hrow, grabbed_chatVC]
    constructor
    · rintro ⟨target, hok, -, -, hfirst⟩
      have huuid := grabUserFromUuid_uuid hok
      exact ⟨y, target, rfl, hok, huuid ▸ hfirst⟩
    · rintro ⟨b, target, hb, hok, hfirst⟩
      obtain rfl : y = b := by simpa using hb
      have huuid := grabUserFromUuid_uuid hok
      subst huuid
      exact ⟨target, hok, Or.inl rfl, ⟨_, chatUsers_chatData _, by simp⟩, hfirst⟩
  · -- the current user is second, and the handler asks for a scene that does not exist
    obtain rfl : y = cu.uuid := by
      have hmem := (arrayContains_chatData _ _).mp hcu
      simpa [Ne.symm hx, eq_comm] using hmem
    simp only [didSelectRowAt_second hx hrow]
    refine iff_of_false ?_ ?_
    · rintro ⟨target, hp, -⟩
      exact grabbed_ppchat _ _ hp
    · rintro ⟨b, target, hb, -⟩
      exact hx (List.cons.inj hb).1

/-- Row `i` opens its own conversation exactly if the current user is the first participant, the
second one is found, and no earlier row has the second one. -/
theorem rowOpens_iff_run {s : State} (hs : Initial s) (as : List Action)
    (users : OrderedMap String Dict) (err : Bool) (cu : User) (v : ℕ) {i : ℕ} {id : String}
    {d : Dict} (hi : (chatsOf (Runs.run step s as) cu.uuid)[i]? = some (id, d)) :
    RowOpens (Runs.run step s as) users err cu v i id d ↔
      OpensItself (Runs.run step s as) users err cu i d :=
  rowOpens_iff (Runs.invariant (I := Known) (fun _ a h => h.step a) hs.known as) users err cu v hi

end

open PlainKit

def ann : User := makeUserInDB "ann" "a"

def bob : User := makeUserInDB "bob" "b"

/-- The two users' documents. -/
def annsAndBobs : OrderedMap String Dict :=
  (OrderedMap.set ∅ "a" ann.toFireObj).set "b" bob.toFireObj

/-- Ann adds a chat with Bob and then, typing her own name, one with herself. -/
def bobsAndOwn : List Action :=
  [.createNewChatWith "a" "b", .createNewChatWith "a" "a", .addDocument 0 "k", .addDocument 0 "m"]

/-- Bob's row traps, and Ann's row of the chat with herself opens the one with Bob. -/
theorem bobsAndOwn_misopened :
    let s := Runs.run step annAndBob bobsAndOwn
    Initial annAndBob ∧
      (chatsOf s "b")[0]? = some ("k", chatData ["a", "b"]) ∧
      didSelectRowAt (some bob) (getNumberofChats [] (some (chatsOf s "b"))) 0
        (grabUserFromUuid annsAndBobs false) = .trap ∧
      ¬ RowOpens s annsAndBobs false bob 2 0 "k" (chatData ["a", "b"]) ∧
      (chatsOf s "a")[1]? = some ("m", chatData ["a", "a"]) ∧
      ((opened s 2 "a" "a").screens 2).docReference = some "k" ∧
      ¬ RowOpens s annsAndBobs false ann 2 1 "m" (chatData ["a", "a"]) := by
  intro s
  have hb : (chatsOf s "b")[0]? = some ("k", chatData ["a", "b"]) := rfl
  have ha : (chatsOf s "a")[1]? = some ("m", chatData ["a", "a"]) := rfl
  have hs : Known s := Runs.invariant (I := Known) (fun _ a h => h.step a) initial_annAndBob.known _
  refine ⟨initial_annAndBob, hb, rfl, fun h => ?_, ha, by decide +kernel, fun h => ?_⟩
  · obtain ⟨b, target, hd, -⟩ := (rowOpens_iff hs annsAndBobs false bob 2 hb).mp h
    exact absurd (List.cons.inj (Option.some.inj hd)).1 (by decide)
  · obtain ⟨b, target, hd, -, hfirst⟩ := (rowOpens_iff hs annsAndBobs false ann 2 ha).mp h
    obtain rfl : "a" = b := (List.cons.inj (List.cons.inj (Option.some.inj hd)).2).1
    exact hfirst 0 (by decide) ("k", chatData ["a", "b"]) rfl ⟨["a", "b"], rfl, by decide⟩

/-- Ann's row of the chat with Bob. -/
theorem rowOpens_iff_run_annsFirst :
    RowOpens (Runs.run step annAndBob bobsAndOwn) annsAndBobs false ann 2 0 "k"
        (chatData ["a", "b"]) ∧
      (RowOpens (Runs.run step annAndBob bobsAndOwn) annsAndBobs false ann 2 0 "k"
          (chatData ["a", "b"]) ↔
        OpensItself (Runs.run step annAndBob bobsAndOwn) annsAndBobs false ann 0
          (chatData ["a", "b"])) := by
  have hi : (chatsOf (Runs.run step annAndBob bobsAndOwn) ann.uuid)[0]? =
      some ("k", chatData ["a", "b"]) := rfl
  have hiff := rowOpens_iff_run initial_annAndBob bobsAndOwn annsAndBobs false ann 2 hi
  exact ⟨hiff.mpr ⟨"b", bob, rfl, rfl, by simp⟩, hiff⟩

end JamSession.Chats
