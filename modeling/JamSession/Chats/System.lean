import Mathlib.Data.String.Basic
import JamSession.Library.OrderedMap
import JamSession.Library.Runs
import JamSession.Firestore.Value

/-! The chats: the `Chats` collection, the chat screens that look for a document of their two
users in it, and the chats that `ChatsController` adds. A chat screen works for one current
and one target user for as long as it is there. What it waits for is a task: the answer of its
query, an `addDocument`, the acknowledgement. Any outstanding task may take its next step at any
time, and each step of the backend may fail. -/

namespace JamSession.Chats

variable [UIKit]

/-! ### Documents -/

/-- The data of a new chat. -/
def chatData (users : List String) : Dict
  | "users" => some (.strings users)
  | _ => none

/-- `Chat(dictionary:)`, of which `users` is the only field. -/
def chatUsers (dictionary : Dict) : Option (List String) := dictionary.strings "users"

/-- `arrayContains` on the field `users`. -/
def arrayContains (uuid : String) (d : Dict) : Bool :=
  match d "users" with
  | some (.array vs) => vs.any fun v => v.asString = some uuid
  | _ => false

@[simp] theorem chatUsers_chatData (users : List String) :
    chatUsers (chatData users) = some users :=
  Value.asStrings_strings users

@[simp] theorem arrayContains_chatData (uuid : String) (users : List String) :
    arrayContains uuid (chatData users) = true ↔ uuid ∈ users := by
  simp [arrayContains, chatData, Value.strings]

/-! ### States -/

/-- A `NoChatViewController`. -/
structure ChatScreen where
  currentUser : String
  targetUser : Option String
  docReference : Option String

inductive Task
  /-- The query of `loadChat`, before and after its answer. -/
  | asked (v : ℕ)
  | answered (v : ℕ) (documents : Option (List (String × Dict)))
  /-- An `addDocument`, of a screen's `createNewChat` or of `createNewChatWith`, before and
  after its acknowledgement. `answer` is the one it was decided on, `[]` where none was asked
  for, and no step reads it. -/
  | adding (v : Option ℕ) (answer : List (String × Dict)) (data : Dict)
  | added (v : Option ℕ) (err : Bool)

structure State where
  chats : OrderedMap String Dict
  screens : ℕ → ChatScreen
  tasks : List Task

namespace State

def add (s : State) (t : Task) : State := { s with tasks := s.tasks ++ [t] }

def drop (s : State) (i : ℕ) : State := { s with tasks := s.tasks.eraseIdx i }

def store (s : State) (id : String) (data : Dict) : State :=
  { s with chats := s.chats.set id data }

def refer (s : State) (v : ℕ) (id : String) : State :=
  { s with screens := Function.update s.screens v { s.screens v with docReference := some id } }

end State

/-! ### The functions -/

def createNewChat (s : State) (v : ℕ) (answer : List (String × Dict)) : State :=
  match (s.screens v).targetUser with
  | none => s
  | some target => s.add (.adding (some v) answer (chatData [(s.screens v).currentUser, target]))

def loadChat (s : State) (v : ℕ) : State :=
  if (s.screens v).targetUser.isSome then s.add (.asked v) else s

/-- The first document of the answer whose chat has the target user. -/
def chatWith (target : Option String) (documents : List (String × Dict)) : Option String :=
  (documents.find? fun e => target.any fun t => (chatUsers e.2).any fun users => t ∈ users).map
    Prod.fst

/-- The completion of the query of `loadChat`. -/
def loadChatAnswered (s : State) (v : ℕ) : Option (List (String × Dict)) → State
  | none => s
  | some documents =>
    if documents.length = 0 then createNewChat s v documents
    else match chatWith (s.screens v).targetUser documents with
      | some id => s.refer v id
      | none => createNewChat s v documents

def createNewChatWith (s : State) (currentUser user : String) : State :=
  s.add (.adding none [] (chatData [currentUser, user]))

/-! ### The transition function -/

inductive Action
  | loadChat (v : ℕ)
  | createNewChatWith (currentUser user : String)
  | addDocument (i : ℕ) (id : String)
  | advance (i : ℕ) (err : Bool)

/-- The next step of a task that was taken from the list. -/
def proceed (s : State) (err : Bool) : Task → State
  | .asked v => s.add (.answered v (if err then none
      else some (s.chats.select fun _ d => arrayContains (s.screens v).currentUser d)))
  | .answered v documents => loadChatAnswered s v documents
  | .adding v _ _ => s.add (.added v true)
  | .added (some v) false => loadChat s v
  | .added _ _ => s

/-- An `addDocument` is stored under an id that no document has; `advance` lets it fail. -/
def step (s : State) : Action → State
  | .loadChat v => loadChat s v
  | .createNewChatWith currentUser user => createNewChatWith s currentUser user
  | .addDocument i id => match s.tasks[i]?, s.chats.get? id with
    | some (.adding v _ data), none => ((s.drop i).store id data).add (.added v false)
    | _, _ => s
  | .advance i err => match s.tasks[i]? with
    | some t => proceed (s.drop i) err t
    | none => s

/-- No chats, nothing under way, and no screen refers to a document. -/
structure Initial (s : State) : Prop where
  chats : s.chats = ∅
  screens : ∀ v, (s.screens v).docReference = none
  tasks : s.tasks = []

end JamSession.Chats
