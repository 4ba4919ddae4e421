import JamSession.Chats.OneChat
import JamSession.Threads.Listener

/-! Sending messages on chat screens. Any number of screens send, load their chats and have
listeners; the chats go on as in the model of the chats, with other clients' steps in between.
A new thread document has its id from the client, so the client's own snapshots hold it from
the call of `addDocument` on, and the documents of the server as far as the client has seen
them. The backend does not fail a message.

The messages that were sent, with how far each came, are kept in one list: what waits for the
server or for an acknowledgement is told by the stage, and the rest serves the statements. -/

namespace JamSession.Threads

open Chats (chatWith)

variable [UIKit]

/-- How far the `addDocument` of a message has come. -/
inductive Stage
  | issued
  | stored
  | acknowledged
  deriving DecidableEq

/-- A message that the send handler of a screen accepted, and the chat and the id under which
`save` adds its document, if the screen refers to a chat. -/
structure Sent where
  screen : ℕ
  message : Message
  document : Option (String × String)
  stage : Stage

/-- `synced` tells of a screen whether the last firing included all acknowledged writes. -/
structure State where
  chats : Chats.State
  usernames : ℕ → String
  threads : String → OrderedMap String Dict
  messages : ℕ → List Message
  listeners : List (ℕ × String)
  sent : List Sent
  synced : ℕ → Bool

/-! ### Sending -/

/-- Neither the message nor its document has an id that was given out before. -/
def Fresh (s : State) (id docId : String) : Prop :=
  ∀ x ∈ s.sent, x.message.id ≠ id ∧ x.document.map Prod.snd ≠ some docId

instance (s : State) (id docId : String) : Decidable (Fresh s id docId) :=
  inferInstanceAs (Decidable (∀ x ∈ s.sent, _ ∧ _))

def insertNewMessage (s : State) (v : ℕ) (message : Message) : State :=
  { s with messages := Function.update s.messages v (s.messages v ++ [message]) }

/-- `docReference?.collection("thread").addDocument` -/
def save (s : State) (v : ℕ) (message : Message) (docId : String) : State :=
  { s with sent := s.sent ++
      [⟨v, message, (s.chats.screens v).docReference.map fun chat => (chat, docId), .issued⟩] }

/-- `inputBar(_:didPressSendButtonWith:)`, which clears the input field whatever `save` does. -/
def didPressSendButton (s : State) (v : ℕ) (text id : String) (created : Timestamp)
    (docId : String) : State :=
  let message := ⟨id, text, created, (s.chats.screens v).currentUser, s.usernames v⟩
  save (insertNewMessage s v message) v message docId

/-! ### Writes and snapshots -/

/-- The message `id` has come to a further stage. -/
def Sent.advance (id : String) (stage : Stage) (x : Sent) : Sent :=
  if x.message.id = id then { x with stage := stage } else x

/-- The `addDocument` of the message `id` is stored. -/
def store (s : State) (id : String) : State :=
  match s.sent.find? fun x => x.message.id = id ∧ x.stage = .issued with
  | none => s
  | some x => match x.document with
    | none => s
    | some (chat, docId) => { s with
        threads := Function.update s.threads chat ((s.threads chat).set docId (saveData x.message))
        sent := s.sent.map (Sent.advance id .stored) }

def acknowledge (s : State) (id : String) : State :=
  match s.sent.find? fun x => x.message.id = id ∧ x.stage = .stored with
  | none => s
  | some _ => { s with sent := s.sent.map (Sent.advance id .acknowledged) }

/-- The document of a message of the screen `v` in the chat that is not acknowledged. -/
def Sent.pending (v : ℕ) (chat : String) (x : Sent) : Option (String × Dict) :=
  if x.screen = v ∧ x.stage ≠ .acknowledged then match x.document with
    | some (chat', docId) => if chat' = chat then some (docId, saveData x.message) else none
    | none => none
  else none

/-- What the client of the screen `v` knows of a thread. -/
def view (s : State) (v : ℕ) (chat : String) (seen : List String) : OrderedMap String Dict :=
  ((s.threads chat).restrict fun id => id ∈ seen).setAll (s.sent.filterMap (Sent.pending v chat))

/-- The snapshot includes all acknowledged writes to the thread. -/
def Complete (s : State) (chat : String) (seen : List String) : Prop :=
  ∀ x ∈ s.sent, x.stage = .acknowledged → x.document.map Prod.fst = some chat →
    ∀ id ∈ x.document.map Prod.snd, id ∈ seen

instance (s : State) (chat : String) (seen : List String) : Decidable (Complete s chat seen) :=
  inferInstanceAs (Decidable (∀ x ∈ s.sent, _ → _ → ∀ id ∈ x.document.map Prod.snd, _))

/-- A listener fires; the trap of a firing would end the client here. -/
def fire (s : State) (v : ℕ) (chat : String) (seen : List String) : State :=
  match threadChanged (s.messages v) (some (ordered (view s v chat seen))) with
  | none => s
  | some messages => { s with
      messages := Function.update s.messages v messages
      synced := Function.update s.synced v (decide (Complete s chat seen)) }

/-! ### The transition function -/

/-- The screen and the chat whose thread a step of the chats attaches a listener to. -/
def attached (s : Chats.State) : Chats.Action → Option (ℕ × String)
  | .advance i _ => match s.tasks[i]? with
    | some (.answered v (some documents)) =>
      (chatWith (s.screens v).targetUser documents).map fun chat => (v, chat)
    | _ => none
  | _ => none

inductive Action
  | chat (a : Chats.Action)
  | send (v : ℕ) (text id : String) (created : Timestamp) (docId : String)
  | store (id : String)
  | acknowledge (id : String)
  | fire (l : ℕ) (seen : List String)

/-- Ids of messages and of documents are fresh. -/
def step (s : State) : Action → State
  | .chat a => { s with
      chats := Chats.step s.chats a
      listeners := s.listeners ++ (attached s.chats a).toList }
  | .send v text id created docId =>
    if Fresh s id docId then didPressSendButton s v text id created docId else s
  | .store id => store s id
  | .acknowledge id => acknowledge s id
  | .fire l seen => match s.listeners[l]? with
    | some (v, chat) => fire s v chat seen
    | none => s

/-- No chats, no messages and nothing under way. -/
structure Initial (s : State) : Prop where
  chats : Chats.Initial s.chats
  threads : ∀ chat, s.threads chat = ∅
  messages : ∀ v, s.messages v = []
  listeners : s.listeners = []
  sent : s.sent = []

end JamSession.Threads
