import JamSession.Firestore.Value

/-! `Message`, the dictionary of its fields and its failable initializer. -/

namespace JamSession

structure Message where
  id : String
  content : String
  created : Timestamp
  senderID : String
  senderName : String
  deriving DecidableEq

variable [UIKit]

namespace Message

def dictionary (m : Message) : Dict
  | "id" => some (.string m.id)
  | "content" => some (.string m.content)
  | "created" => some (.timestamp m.created)
  | "senderID" => some (.string m.senderID)
  | "senderName" => some (.string m.senderName)
  | _ => none

/-- `Message(dictionary:)` -/
def ofDictionary (dictionary : Dict) : Option Message := do
  let id ← dictionary.string "id"
  let content ← dictionary.string "content"
  let created ← dictionary.timestamp "created"
  let senderID ← dictionary.string "senderID"
  let senderName ← dictionary.string "senderName"
  return ⟨id, content, created, senderID, senderName⟩

@[simp] theorem ofDictionary_dictionary (m : Message) : ofDictionary m.dictionary = some m := rfl

theorem dictionary_injective : Function.Injective (dictionary : Message → Dict) := fun m m' h =>
  Option.some.inj (by rw [← ofDictionary_dictionary m, h, ofDictionary_dictionary])

end Message

end JamSession
