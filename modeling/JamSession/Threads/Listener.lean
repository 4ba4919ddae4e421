import Mathlib.Data.Int.ConditionallyCompleteOrder
import Mathlib.Data.List.Sort
import Mathlib.Data.Set.List
import Mathlib.Data.String.Basic
import Mathlib.Order.ConditionallyCompleteLattice.Finset
import Mathlib.Order.WithBot
import JamSession.Library.OrderedMap
import JamSession.Models.Message
import JamSession.Firestore.PlainKit

/-! The thread of a chat: the documents that `save` adds to it, and the snapshot listener of
`loadChat`, which rebuilds `messages` from a whole snapshot each time it fires. -/

namespace JamSession.Threads

section

variable [UIKit]

/-- The data that `save` writes for a message. -/
def saveData (message : Message) : Dict
  | "content" => some (.string message.content)
  | "created" => some (.timestamp message.created)
  | "id" => some (.string message.id)
  | "senderID" => some (.string message.senderID)
  | "senderName" => some (.string message.senderName)
  | _ => none

def created (d : Dict) : WithBot Timestamp := d.timestamp "created"

/-- `thread.order(by: "created", descending: false)`: the documents that have the field, those
of one time in the order of their ids. -/
def ordered (thread : OrderedMap String Dict) : List Dict :=
  ((thread.select fun _ d => (d "created").isSome).map Prod.snd).insertionSort
    fun d e => created d ≤ created e

/-- The loop of the listener; `none` is the trap of `msg!`. -/
def appendAll (messages : List Message) : List Dict → Option (List Message)
  | [] => some messages
  | document :: documents => match Message.ofDictionary document with
    | none => none
    | some msg => appendAll (messages ++ [msg]) documents

/-- A firing of the listener, with an error or with the documents of a snapshot. -/
def threadChanged (messages : List Message) : Option (List Dict) → Option (List Message)
  | none => some messages
  | some documents => appendAll [] documents

/-! ### Saved messages -/

/-- All documents of the thread were written by `save`. -/
def Saved (thread : OrderedMap String Dict) : Prop :=
  ∀ id d, thread.get? id = some d → ∃ message, d = saveData message

/-- `save` writes the fields of the message under the names that the decoder reads. -/
theorem saveData_eq_dictionary (message : Message) : saveData message = message.dictionary := by
  funext key
  unfold saveData Message.dictionary
  split <;> simp_all

@[simp] theorem ofDictionary_saveData (message : Message) :
    Message.ofDictionary (saveData message) = some message := by
  rw [saveData_eq_dictionary, Message.ofDictionary_dictionary]

theorem saveData_injective : Function.Injective (saveData : Message → Dict) := by
  intro m m' h
  rw [saveData_eq_dictionary, saveData_eq_dictionary] at h
  exact Message.dictionary_injective h

theorem appendAll_saved (messages added : List Message) :
    appendAll messages (added.map saveData) = some (messages ++ added) := by
  induction added generalizing messages with
  | nil => simp [appendAll]
  | cons m added ih => simp [appendAll, ih]

/-- A firing with the documents of some messages leaves these messages. -/
theorem threadChanged_map_saveData (before messages : List Message) :
    threadChanged before (some (messages.map saveData)) = some messages := by
  rw [threadChanged, appendAll_saved, List.nil_append]

/-- The documents of a saved thread, in the order of a snapshot. -/
theorem Saved.ordered {thread : OrderedMap String Dict} (h : Saved thread) :
    ∃ messages : List Message, ordered thread = messages.map saveData ∧
      messages.Pairwise (fun m m' => m.created ≤ m'.created) ∧
      (messages.map saveData).Perm (thread.entries.map Prod.snd) := by
  have hall : ∀ d ∈ thread.entries.map Prod.snd, d ∈ Set.range (saveData : Message → Dict) := by
    intro d hd
    obtain ⟨e, he, rfl⟩ := List.mem_map.mp hd
    obtain ⟨m, hm⟩ := h e.1 e.2 (thread.get?_eq_some_iff.mpr he)
    exact ⟨m, hm.symm⟩
  have hselect : (thread.select fun _ d => (d "created").isSome) = thread.entries :=
    List.filter_eq_self.mpr fun e he => by
      obtain ⟨m, hm⟩ := hall e.2 (List.mem_map_of_mem he)
      rw [← hm]
      rfl
  have hperm : (Threads.ordered thread).Perm (thread.entries.map Prod.snd) := by
    rw [Threads.ordered, hselect]
    exact List.perm_insertionSort _ _
  have hrange : Threads.ordered thread ∈ Set.range (List.map (saveData : Message → Dict)) := by
    rw [Set.range_list_map]
    exact fun d hd => hall d (hperm.subset hd)
  obtain ⟨messages, hdocs⟩ := hrange
  refine ⟨messages, hdocs.symm, ?_, hdocs ▸ hperm⟩
  have hsorted : (Threads.ordered thread).Pairwise fun d e => created d ≤ created e :=
    List.pairwise_insertionSort _ _
  rw [← hdocs, List.pairwise_map] at hsorted
  exact hsorted.imp fun hle => WithBot.coe_le_coe.mp hle

/-- A firing never traps. It leaves the saved messages, each as it was saved and once for each
document, in the order of the snapshot, whatever the messages were before. -/
theorem threadChanged_saved {thread : OrderedMap String Dict} (h : Saved thread) :
    ∃ messages : List Message, ordered thread = messages.map saveData ∧
      messages.Pairwise (fun m m' => m.created ≤ m'.created) ∧
      (messages.map saveData).Perm (thread.entries.map Prod.snd) ∧
      ∀ before, threadChanged before (some (ordered thread)) = some messages := by
  obtain ⟨messages, hdocs, hsorted, hperm⟩ := h.ordered
  refine ⟨messages, hdocs, hsorted, hperm, fun before => ?_⟩
  rw [hdocs, threadChanged_map_saveData]

end

open PlainKit

/-- Ann's message. -/
def hello : Message := ⟨"1", "hello", (100, 0), "a", "ann"⟩

/-- Bob's answer, whose document has the smaller id. -/
def answer : Message := ⟨"2", "hi", (100, 5), "b", "bob"⟩

def helloThread : OrderedMap String Dict := (OrderedMap.set ∅ "y" (saveData hello)).set "x" (saveData answer)

theorem saved_helloThread : Saved helloThread := by
  intro id d hd
  simp only [helloThread, OrderedMap.get?_set, OrderedMap.get?_empty] at hd
  split_ifs at hd
  · exact ⟨answer, (Option.some.inj hd).symm⟩
  · exact ⟨hello, (Option.some.inj hd).symm⟩

/-- Ann's own message is in her list already when the snapshot comes. -/
theorem threadChanged_saved_helloThread :
    threadChanged [hello] (some (ordered helloThread)) = some [hello, answer] ∧
      ∃ messages : List Message, ordered helloThread = messages.map saveData ∧
        messages.Pairwise (fun m m' => m.created ≤ m'.created) ∧
        (messages.map saveData).Perm (helloThread.entries.map Prod.snd) ∧
        ∀ before, threadChanged before (some (ordered helloThread)) = some messages :=
  ⟨by decide, threadChanged_saved saved_helloThread⟩

end JamSession.Threads
