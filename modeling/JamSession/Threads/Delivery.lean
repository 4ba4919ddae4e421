import JamSession.Threads.System

/-! No sent message is lost or repeated. A message goes to the thread that the screen refers to
when the send button is pressed, and nowhere if it refers to none yet; a firing rebuilds the
list of messages from one thread. So all is well exactly if a screen has its reference before
the first message and keeps it. -/

namespace JamSession.Threads

open Chats (HasUser)

section

variable [UIKit]

/-- The document `docId` of the chat's thread holds the message, or its `addDocument` is on its
way. -/
def Receives (s : State) (chat docId : String) (m : Message) : Prop :=
  (s.threads chat).get? docId = some (saveData m) ∨
    ∃ x ∈ s.sent, x.document = some (chat, docId) ∧ x.stage = .issued ∧ x.message = m

/-- The chat is one of the two users of the screen. -/
def OfConversation (s : State) (v : ℕ) (chat : String) : Prop :=
  ∃ d target, s.chats.chats.get? chat = some d ∧ (s.chats.screens v).targetUser = some target ∧
    HasUser d (s.chats.screens v).currentUser ∧ HasUser d target

/-- Each message has one document, in a thread of the conversation, and is in the list of its
screen once if the last firing was complete. -/
structure Delivered (s : State) : Prop where
  written : ∀ x ∈ s.sent, ∃ p : String × String, OfConversation s x.screen p.1 ∧
    ∀ q : String × String, Receives s q.1 q.2 x.message ↔ q = p
  shown : ∀ x ∈ s.sent, s.synced x.screen → (s.messages x.screen).count x.message = 1

/-- The condition on a step: a message is sent by a screen that has a reference, and a complete
firing comes from the chat that the screen's messages were sent to. -/
def KeepsReference (s : State) : Action → Prop
  | .send v _ id _ docId => Fresh s id docId → (s.chats.screens v).docReference.isSome
  | .fire l seen => match s.listeners[l]? with
    | some (v, chat) => Complete s chat seen →
        ∀ x ∈ s.sent, x.screen = v → x.document.map Prod.fst = some chat
    | none => True
  | _ => True

instance (s : State) (a : Action) : Decidable (KeepsReference s a) := by
  cases a with
  | send => exact inferInstanceAs (Decidable (_ → _))
  | fire l seen =>
    simp only [KeepsReference]
    split <;> infer_instance
  | chat => exact isTrue trivial
  | store => exact isTrue trivial
  | acknowledge => exact isTrue trivial

/-! ### What is known of the threads -/

/-- Two messages share neither an id nor the id of a document. -/
def Sent.Apart (x y : Sent) : Prop :=
  x.message.id ≠ y.message.id ∧
    ∀ id, x.document.map Prod.snd = some id → y.document.map Prod.snd ≠ some id

instance : Std.Symm Sent.Apart :=
  ⟨fun _ _ h => ⟨h.1.symm, fun id hx hy => h.2 id hy hx⟩⟩

/-- The documents of the threads are those of the messages that have been stored, each message
and each document has its own id, and the lists hold messages that were sent. -/
structure Kept (s : State) : Prop where
  chats : Chats.Known s.chats
  apart : s.sent.Pairwise Sent.Apart
  threads : ∀ chat docId d, (s.threads chat).get? docId = some d ↔
    ∃ x ∈ s.sent, x.document = some (chat, docId) ∧ x.stage ≠ .issued ∧ d = saveData x.message
  conversation : ∀ x ∈ s.sent, ∀ p, x.document = some p → OfConversation s x.screen p.1
  messages : ∀ v, ∀ m ∈ s.messages v, ∃ x ∈ s.sent, x.message = m

theorem Initial.kept {s : State} (h : Initial s) : Kept s := by
  refine ⟨h.chats.known, ?_, fun chat docId d => ?_, fun x hx => ?_, fun v m hm => ?_⟩
  · rw [h.sent]
    exact List.Pairwise.nil
  · simp [h.threads, h.sent]
  · rw [h.sent] at hx
    cases hx
  · rw [h.messages] at hm
    cases hm

namespace Kept

variable {s : State}

/-- Two sent messages with one id are one. -/
theorem eq_of_id (h : Kept s) {x y : Sent} (hx : x ∈ s.sent) (hy : y ∈ s.sent)
    (hid : x.message.id = y.message.id) : x = y := by
  by_contra hne
  exact (h.apart.forall hx hy hne).1 hid

theorem eq_of_document (h : Kept s) {x y : Sent} (hx : x ∈ s.sent) (hy : y ∈ s.sent)
    {c c' id : String} (hdx : x.document = some (c, id)) (hdy : y.document = some (c', id)) :
    x = y := by
  by_contra hne
  exact (h.apart.forall hx hy hne).2 id (by rw [hdx]; rfl) (by rw [hdy]; rfl)

/-- A message is received at the document it was sent to, and nowhere else. -/
theorem receives_iff (h : Kept s) {x : Sent} (hx : x ∈ s.sent) (q : String × String) :
    Receives s q.1 q.2 x.message ↔ x.document = some q := by
  constructor
  · rintro (hstored | ⟨y, hy, hdoc, -, hm⟩)
    · obtain ⟨y, hy, hdoc, -, hdata⟩ := (h.threads _ _ _).mp hstored
      rw [h.eq_of_id hx hy (congrArg Message.id (saveData_injective hdata)), hdoc]
    · rw [h.eq_of_id hx hy (congrArg Message.id hm.symm), hdoc]
  · intro hdoc
    by_cases hstage : x.stage = .issued
    · exact Or.inr ⟨x, hx, hdoc, hstage, rfl⟩
    · exact Or.inl ((h.threads _ _ _).mpr ⟨x, hx, hdoc, hstage, rfl⟩)

/-- All messages are delivered if they were sent with a reference and are shown. -/
theorem delivered_iff (h : Kept s) : Delivered s ↔ (∀ x ∈ s.sent, x.document.isSome) ∧
    ∀ x ∈ s.sent, s.synced x.screen → (s.messages x.screen).count x.message = 1 := by
  constructor
  · refine fun hd => ⟨fun x hx => ?_, hd.shown⟩
    obtain ⟨p, -, hp⟩ := hd.written x hx
    rw [(h.receives_iff hx p).mp ((hp p).mpr rfl)]
    rfl
  · rintro ⟨hdoc, hshown⟩
    refine ⟨fun x hx => ?_, hshown⟩
    obtain ⟨p, hp⟩ := Option.isSome_iff_exists.mp (hdoc x hx)
    refine ⟨p, h.conversation x hx p hp, fun q => ?_⟩
    rw [h.receives_iff hx q, hp, Option.some.injEq, eq_comm]

end Kept

/-! ### Snapshots -/

theorem pending_eq_some {v : ℕ} {chat id : String} {d : Dict} {x : Sent} :
    x.pending v chat = some (id, d) ↔ x.screen = v ∧ x.stage ≠ .acknowledged ∧
      x.document = some (chat, id) ∧ d = saveData x.message := by
  unfold Sent.pending
  split_ifs with hx
  · cases hdoc : x.document with
    | none => simp
    | some p =>
      obtain ⟨c, k⟩ := p
      by_cases hc : c = chat
      · simp [hc, hx, eq_comm]
      · simp [hc]
  · simp only [false_iff]
    exact fun h => hx ⟨h.1, h.2.1⟩

/-- The message is in the snapshots of the screen `v`: it was stored and seen, or it is one of
the client's own that is not acknowledged. -/
def Sent.Visible (v : ℕ) (seen : List String) (id : String) (x : Sent) : Prop :=
  x.stage ≠ .issued ∧ id ∈ seen ∨ x.screen = v ∧ x.stage ≠ .acknowledged

namespace Kept

variable {s : State}

theorem view_get? (h : Kept s) {v : ℕ} {chat id : String} {seen : List String} {d : Dict} :
    (view s v chat seen).get? id = some d ↔ ∃ x ∈ s.sent, x.document = some (chat, id) ∧
      x.Visible v seen id ∧ d = saveData x.message := by
  have hpending : ∀ e, e ∈ s.sent.filterMap (Sent.pending v chat) ↔ ∃ x ∈ s.sent,
      x.screen = v ∧ x.stage ≠ .acknowledged ∧ x.document = some (chat, e.1) ∧
        e.2 = saveData x.message := by
    rintro ⟨k, d⟩
    simp only [List.mem_filterMap, pending_eq_some]
  have hstored : ∀ k d, ((s.threads chat).restrict fun id => id ∈ seen).get? k = some d ↔
      ∃ x ∈ s.sent, x.document = some (chat, k) ∧ (x.stage ≠ .issued ∧ k ∈ seen) ∧
        d = saveData x.message := by
    intro k d
    rw [OrderedMap.get?_restrict, h.threads, decide_eq_true_eq]
    constructor
    · rintro ⟨⟨x, hx, hdoc, hstage, hd⟩, hk⟩
      exact ⟨x, hx, hdoc, ⟨hstage, hk⟩, hd⟩
    · rintro ⟨x, hx, hdoc, ⟨hstage, hk⟩, hd⟩
      exact ⟨⟨x, hx, hdoc, hstage, hd⟩, hk⟩
  rw [view, OrderedMap.get?_setAll, hstored, hpending]
  · constructor
    · rintro (⟨x, hx, hdoc, hv, hd⟩ | ⟨x, hx, hv, hstage, hdoc, hd⟩)
      · exact ⟨x, hx, hdoc, Or.inl hv, hd⟩
      · exact ⟨x, hx, hdoc, Or.inr ⟨hv, hstage⟩, hd⟩
    · rintro ⟨x, hx, hdoc, hv | ⟨hv, hstage⟩, hd⟩
      · exact Or.inl ⟨x, hx, hdoc, hv, hd⟩
      · exact Or.inr ⟨x, hx, hv, hstage, hdoc, hd⟩
  · intro e he d hd
    obtain ⟨x, hx, -, -, hdoc, hdata⟩ := (hpending e).mp he
    obtain ⟨y, hy, hdoc', -, hdata'⟩ := (hstored _ _).mp hd
    rw [hdata, hdata', h.eq_of_document hx hy hdoc hdoc']
  · intro d hd e he hk
    obtain ⟨x, hx, -, -, hdoc, hdata⟩ := (hpending d).mp hd
    obtain ⟨y, hy, -, -, hdoc', hdata'⟩ := (hpending e).mp he
    rw [hdata, hdata', h.eq_of_document hx hy hdoc (hk ▸ hdoc')]

/-- A firing lists the visible messages of its chat, each once. -/
theorem threadChanged (h : Kept s) (v : ℕ) (chat : String) (seen : List String) :
    ∃ messages : List Message,
      threadChanged (s.messages v) (some (ordered (view s v chat seen))) = some messages ∧
      messages.Nodup ∧ ∀ m, m ∈ messages ↔ ∃ x ∈ s.sent, x.message = m ∧
        ∃ id, x.document = some (chat, id) ∧ x.Visible v seen id := by
  have hsaved : Saved (view s v chat seen) := fun id d hd => by
    obtain ⟨x, -, -, -, hdata⟩ := h.view_get?.mp hd
    exact ⟨x.message, hdata⟩
  obtain ⟨messages, hdocs, -, hperm⟩ := hsaved.ordered
  refine ⟨messages, by rw [hdocs, threadChanged_map_saveData], ?_, fun m => ?_⟩
  · have hvalues := OrderedMap.nodup_values (m := view s v chat seen) fun j k d hj hk => by
      obtain ⟨x, hx, hdoc, -, hdata⟩ := h.view_get?.mp hj
      obtain ⟨y, hy, hdoc', -, hdata'⟩ := h.view_get?.mp hk
      have hm := saveData_injective (hdata.symm.trans hdata')
      rw [h.eq_of_id hx hy (congrArg Message.id hm), hdoc'] at hdoc
      cases hdoc
      rfl
    exact List.Nodup.of_map _ (hperm.nodup_iff.mpr hvalues)
  · rw [← List.mem_map_of_injective saveData_injective, hperm.mem_iff, List.mem_map]
    constructor
    · rintro ⟨⟨id, d⟩, he, rfl⟩
      obtain ⟨x, hx, hdoc, hv, hdata⟩ :=
        h.view_get?.mp ((view s v chat seen).get?_eq_some_iff.mpr he)
      exact ⟨x, hx, (saveData_injective hdata).symm, id, hdoc, hv⟩
    · rintro ⟨x, hx, rfl, id, hdoc, hv⟩
      have hget := h.view_get?.mpr ⟨x, hx, hdoc, hv, rfl⟩
      exact ⟨(id, saveData x.message), (view s v chat seen).get?_eq_some_iff.mp hget, rfl⟩

/-- In a complete firing of the screen's own chat all its messages are visible. -/
theorem visible_of_complete {v : ℕ} {chat id : String} {seen : List String} {x : Sent}
    (hc : Complete s chat seen) (hx : x ∈ s.sent) (hv : x.screen = v)
    (hdoc : x.document = some (chat, id)) : x.Visible v seen id := by
  by_cases hstage : x.stage = .acknowledged
  · exact Or.inl ⟨by simp [hstage], hc x hx hstage (by simp [hdoc]) id (by simp [hdoc])⟩
  · exact Or.inr ⟨hv, hstage⟩

end Kept

/-! ### One step -/

section Advance

omit [UIKit]

theorem mem_of_find {P : Sent → Prop} [DecidablePred P] {xs : List Sent} {x : Sent}
    (h : xs.find? (fun x => P x) = some x) : x ∈ xs ∧ P x := by
  have hp := List.find?_some h
  exact ⟨List.mem_of_find?_eq_some h, of_decide_eq_true hp⟩

variable (id : String) (stage : Stage) (x : Sent)

@[simp] theorem advance_screen : (x.advance id stage).screen = x.screen := by
  unfold Sent.advance
  split_ifs <;> rfl

@[simp] theorem advance_message : (x.advance id stage).message = x.message := by
  unfold Sent.advance
  split_ifs <;> rfl

@[simp] theorem advance_document : (x.advance id stage).document = x.document := by
  unfold Sent.advance
  split_ifs <;> rfl

theorem advance_stage :
    (x.advance id stage).stage = if x.message.id = id then stage else x.stage := by
  unfold Sent.advance
  split_ifs <;> rfl

@[simp] theorem advance_apart {y : Sent} :
    (x.advance id stage).Apart (y.advance id stage) ↔ x.Apart y := by
  simp [Sent.Apart]

end Advance

theorem OfConversation.extends {s s' : State} (h : Chats.Extends s.chats s'.chats) {v : ℕ}
    {chat : String} : OfConversation s v chat → OfConversation s' v chat := by
  rintro ⟨d, target, hd, ht, hcur, htar⟩
  refine ⟨d, target, h.chats _ _ hd, (h.targetUser v).trans ht, ?_, htar⟩
  rw [h.currentUser v]
  exact hcur

namespace Kept

variable {s : State}

theorem chat (h : Kept s) (a : Chats.Action) : Kept (step s (.chat a)) where
  chats := h.chats.step a
  apart := h.apart
  threads := h.threads
  conversation x hx p hp := (h.conversation x hx p hp).extends (Chats.step_extends _ _)
  messages := h.messages

theorem send (h : Kept s) {v : ℕ} {text id docId : String} {created : Timestamp}
    (hf : Fresh s id docId) : Kept (didPressSendButton s v text id created docId) where
  chats := h.chats
  apart := by
    refine List.pairwise_append.mpr ⟨h.apart, List.pairwise_singleton _ _, fun x hx y hy => ?_⟩
    rw [List.mem_singleton.mp hy]
    refine ⟨(hf x hx).1, fun k hk hk' => (hf x hx).2 ?_⟩
    simp only [Option.map_map, Option.map_eq_some_iff, Function.comp_apply] at hk'
    obtain ⟨-, -, rfl⟩ := hk'
    exact hk
  threads chat docId' d := by
    rw [didPressSendButton, save, insertNewMessage, h.threads]
    simp
  conversation x hx p hp := by
    rcases List.mem_append.mp hx with hx | hx
    · exact h.conversation x hx p hp
    · rw [List.mem_singleton.mp hx] at hp ⊢
      obtain ⟨chat, hchat, rfl⟩ := Option.map_eq_some_iff.mp hp
      exact h.chats.screens v chat hchat
  messages w m hm := by
    have hmem : ∀ x ∈ s.sent, x ∈ (didPressSendButton s v text id created docId).sent :=
      fun x hx => List.mem_append_left _ hx
    by_cases hw : w = v
    · subst hw
      simp only [didPressSendButton, save, insertNewMessage, Function.update_self] at hm
      rcases List.mem_append.mp hm with hm | hm
      · obtain ⟨x, hx, hxm⟩ := h.messages w m hm
        exact ⟨x, hmem x hx, hxm⟩
      · exact ⟨_, List.mem_append_right _ (List.mem_singleton_self _), (List.mem_singleton.mp hm).symm⟩
    · simp only [didPressSendButton, save, insertNewMessage, Function.update_of_ne hw] at hm
      obtain ⟨x, hx, hxm⟩ := h.messages w m hm
      exact ⟨x, hmem x hx, hxm⟩

/-- A message has come to a further stage, and the threads hold what has been stored. -/
theorem advance (h : Kept s) {id : String} {stage : Stage}
    {threads : String → OrderedMap String Dict}
    (hthreads : ∀ chat docId d, (threads chat).get? docId = some d ↔ ∃ x ∈ s.sent,
      x.document = some (chat, docId) ∧ (x.advance id stage).stage ≠ .issued ∧
        d = saveData x.message) :
    Kept { s with threads := threads, sent := s.sent.map (Sent.advance id stage) } where
  chats := h.chats
  apart := by
    rw [List.pairwise_map]
    exact h.apart.imp fun hxy => (advance_apart id stage _).mpr hxy
  threads chat docId d := by
    rw [hthreads]
    simp only [List.mem_map, exists_exists_and_eq_and, advance_document, advance_message]
  conversation y hy p hp := by
    obtain ⟨x, hx, rfl⟩ := List.mem_map.mp hy
    rw [advance_document] at hp
    rw [advance_screen]
    exact h.conversation x hx p hp
  messages v m hm := by
    obtain ⟨x, hx, rfl⟩ := h.messages v m hm
    exact ⟨_, List.mem_map_of_mem hx, advance_message _ _ _⟩

theorem store (h : Kept s) (id : String) : Kept (store s id) := by
  unfold Threads.store
  split
  · exact h
  · next x hfind =>
    obtain ⟨hx, hid, -⟩ := mem_of_find hfind
    split
    · exact h
    · next chat docId hdoc =>
      refine h.advance fun chat' docId' d => ?_
      by_cases hq : (chat', docId') = (chat, docId)
      · cases hq
        rw [Function.update_self, OrderedMap.get?_set_self, Option.some.injEq]
        constructor
        · rintro rfl
          exact ⟨x, hx, hdoc, by simp [advance_stage, hid], rfl⟩
        · rintro ⟨y, hy, hdoc', -, rfl⟩
          rw [h.eq_of_document hx hy hdoc hdoc']
      · have hother : (Function.update s.threads chat ((s.threads chat).set docId
            (saveData x.message)) chat').get? docId' = (s.threads chat').get? docId' := by
          by_cases hc : chat' = chat
          · subst hc
            rw [Function.update_self, OrderedMap.get?_set_of_ne _ _ fun hk => hq (by rw [hk])]
          · rw [Function.update_of_ne hc]
        rw [hother, h.threads]
        refine exists_congr fun y => and_congr_right fun hy => and_congr_right fun hdoc' => ?_
        -- the message at another document is another one
        have hne : y.message.id ≠ id := fun he => by
          rw [h.eq_of_id hx hy (hid.trans he.symm), hdoc'] at hdoc
          exact hq (Option.some.inj hdoc)
        rw [advance_stage, if_neg hne]

theorem acknowledge (h : Kept s) (id : String) : Kept (acknowledge s id) := by
  unfold Threads.acknowledge
  split
  · exact h
  · next x hfind =>
    obtain ⟨hx, hp⟩ := mem_of_find hfind
    refine h.advance fun chat docId d => ?_
    rw [h.threads]
    refine exists_congr fun y => and_congr_right fun hy => and_congr_right fun _ =>
      and_congr_left fun _ => ?_
    rw [advance_stage]
    split_ifs with hid
    · rw [h.eq_of_id hy hx (hid.trans hp.1.symm), hp.2]
      simp
    · rfl

theorem fire (h : Kept s) (v : ℕ) (chat : String) (seen : List String) :
    Kept (fire s v chat seen) := by
  obtain ⟨messages, hfired, -, hmem⟩ := h.threadChanged v chat seen
  simp only [Threads.fire, hfired]
  refine ⟨h.chats, h.apart, h.threads, h.conversation, fun w m hm => ?_⟩
  by_cases hw : w = v
  · subst hw
    simp only [Function.update_self] at hm
    obtain ⟨x, hx, hxm, -⟩ := (hmem m).mp hm
    exact ⟨x, hx, hxm⟩
  · simp only [Function.update_of_ne hw] at hm
    exact h.messages w m hm

theorem step (h : Kept s) (a : Action) : Kept (step s a) := by
  cases a with
  | chat a => exact h.chat a
  | send v text id created docId =>
    simp only [Threads.step]
    split_ifs with hf
    · exact h.send hf
    · exact h
  | store id => exact h.store id
  | acknowledge id => exact h.acknowledge id
  | fire l seen =>
    simp only [Threads.step]
    split
    · exact h.fire _ _ _
    · exact h

end Kept

/-! ### The exact condition -/

section Exact

variable {s : State} (h : Kept s) (hd : Delivered s)
include h hd

/-- Nothing changes for the lists when a message comes to a further stage. -/
theorem delivered_advance {id : String} {stage : Stage}
    {threads : String → OrderedMap String Dict}
    (hs : Kept { s with threads := threads, sent := s.sent.map (Sent.advance id stage) }) :
    Delivered { s with threads := threads, sent := s.sent.map (Sent.advance id stage) } := by
  obtain ⟨hdoc, hshown⟩ := h.delivered_iff.mp hd
  refine hs.delivered_iff.mpr ⟨fun y hy => ?_, fun y hy hsync => ?_⟩
  · obtain ⟨x, hx, rfl⟩ := List.mem_map.mp hy
    rw [advance_document]
    exact hdoc x hx
  · obtain ⟨x, hx, rfl⟩ := List.mem_map.mp hy
    rw [advance_screen] at hsync ⊢
    rw [advance_message]
    exact hshown x hx hsync

theorem delivered_store (id : String) : Delivered (store s id) := by
  have hs := h.store id
  unfold Threads.store at hs ⊢
  split at hs
  · exact hd
  · split at hs
    · exact hd
    · exact delivered_advance h hd hs

theorem delivered_acknowledge (id : String) : Delivered (acknowledge s id) := by
  have hs := h.acknowledge id
  unfold Threads.acknowledge at hs ⊢
  split at hs
  · exact hd
  · exact delivered_advance h hd hs

/-- The new message is written exactly if the screen refers to a chat. -/
theorem delivered_send_iff {v : ℕ} {text id docId : String} {created : Timestamp}
    (hf : Fresh s id docId) : Delivered (didPressSendButton s v text id created docId) ↔
      (s.chats.screens v).docReference.isSome := by
  obtain ⟨hdoc, hshown⟩ := h.delivered_iff.mp hd
  rw [(h.send hf).delivered_iff]
  constructor
  · rintro ⟨hdoc', -⟩
    have hnew := hdoc' _ (List.mem_append_right _ (List.mem_singleton_self _))
    rwa [Option.isSome_map] at hnew
  · intro href
    refine ⟨fun x hx => ?_, fun x hx hsync => ?_⟩
    · rcases List.mem_append.mp hx with hx | hx
      · exact hdoc x hx
      · rw [List.mem_singleton.mp hx, Option.isSome_map]
        exact href
    · rcases List.mem_append.mp hx with hx | hx
      · -- an earlier message has another id than the one that is added to the list
        have hcount := hshown x hx hsync
        by_cases hv : x.screen = v
        · subst hv
          simp only [didPressSendButton, save, insertNewMessage, Function.update_self,
            List.count_append, hcount]
          rw [List.count_singleton, if_neg]
          simpa using fun he => (hf x hx).1 (congrArg Message.id he).symm
        · simp only [didPressSendButton, save, insertNewMessage, Function.update_of_ne hv]
          exact hcount
      · rw [List.mem_singleton.mp hx]
        simp only [didPressSendButton, save, insertNewMessage, Function.update_self,
          List.count_append, List.count_singleton_self]
        rw [List.count_eq_zero_of_not_mem]
        intro hmem
        obtain ⟨x, hx, hxm⟩ := h.messages v _ hmem
        exact (hf x hx).1 (congrArg Message.id hxm)

/-- A complete firing lists all messages of the screen exactly if they are in its chat. -/
theorem delivered_fire_iff (v : ℕ) (chat : String) (seen : List String) :
    Delivered (fire s v chat seen) ↔ (Complete s chat seen →
      ∀ x ∈ s.sent, x.screen = v → x.document.map Prod.fst = some chat) := by
  obtain ⟨hdoc, hshown⟩ := h.delivered_iff.mp hd
  obtain ⟨messages, hfired, hnodup, hmem⟩ := h.threadChanged v chat seen
  rw [(h.fire v chat seen).delivered_iff]
  simp only [Threads.fire, hfired]
  constructor
  · rintro ⟨-, hshown'⟩ hc x hx rfl
    have hcount := hshown' x hx (by simpa using hc)
    rw [Function.update_self] at hcount
    have hin : x.message ∈ messages := List.count_pos_iff.mp (by omega)
    obtain ⟨y, hy, hym, id, hdoc', -⟩ := (hmem _).mp hin
    rw [h.eq_of_id hx hy (congrArg Message.id hym.symm), hdoc']
    rfl
  · refine fun hC => ⟨hdoc, fun x hx hsync => ?_⟩
    by_cases hv : x.screen = v
    · rw [hv, Function.update_self, decide_eq_true_eq] at hsync
      obtain ⟨⟨c, id⟩, hp, rfl⟩ := Option.map_eq_some_iff.mp (hC hsync x hx hv)
      rw [hv, Function.update_self]
      exact List.count_eq_one_of_mem hnodup ((hmem _).mpr
        ⟨x, hx, rfl, id, hp, Kept.visible_of_complete hsync hx hv hp⟩)
    · rw [Function.update_of_ne hv] at hsync ⊢
      exact hshown x hx hsync

theorem delivered_step_iff (a : Action) : Delivered (step s a) ↔ KeepsReference s a := by
  cases a with
  | chat a =>
    exact iff_of_true ((h.chat a).delivered_iff.mpr (h.delivered_iff.mp hd)) trivial
  | send v text id created docId =>
    simp only [step, KeepsReference]
    split_ifs with hf
    · simp only [delivered_send_iff h hd hf, hf, true_implies]
    · exact iff_of_true hd fun hf' => absurd hf' hf
  | store id => exact iff_of_true (delivered_store h hd id) trivial
  | acknowledge id => exact iff_of_true (delivered_acknowledge h hd id) trivial
  | fire l seen =>
    cases hl : s.listeners[l]? with
    | none =>
      simp only [step, KeepsReference, hl]
      exact iff_of_true hd trivial
    | some p =>
      simp only [step, KeepsReference, hl]
      exact delivered_fire_iff h hd _ _ _

end Exact

/-- In every state of a run each sent message is written once and shown once, if and only if
every message is sent with a reference and every complete firing comes from the chat that the
screen's messages were sent to. -/
theorem delivered_iff_steps {s : State} (hs : Initial s) (as : List Action) :
    Runs.Always step Delivered s as ↔ Runs.Each step KeepsReference s as := by
  apply Runs.always_iff_each (I := fun s => Kept s ∧ Delivered s)
  · exact fun s h => h.2
  · exact fun s a h => delivered_step_iff h.1 h.2 a
  · exact fun s a h hC => ⟨h.1.step a, (delivered_step_iff h.1 h.2 a).mpr hC⟩
  · refine ⟨hs.kept, hs.kept.delivered_iff.mpr ?_⟩
    simp [hs.sent]

end

open PlainKit

/-- Ann has a chat screen for Bob and Bob one for Ann. -/
def annAndBob : State where
  chats := Chats.annAndBob
  usernames v := if v = 0 then "ann" else "bob"
  threads _ := ∅
  messages _ := []
  listeners := []
  sent := []
  synced _ := false

theorem initial_annAndBob : Initial annAndBob :=
  ⟨Chats.initial_annAndBob, fun _ => rfl, fun _ => rfl, rfl, rfl⟩

/-- Ann's screen finds no chat, creates one, finds it and listens to its thread. -/
def loaded : List Action :=
  [.chat (.advance 0 false), .chat (.advance 0 false), .chat (.addDocument 0 "k"),
    .chat (.advance 0 false), .chat (.advance 0 false), .chat (.advance 0 false)]

/-- Ann sends while the chat is being loaded. -/
def sentEarly : List Action :=
  [.chat (.loadChat 0), .send 0 "hello" "1" (100, 0) "x"] ++ loaded ++ [.fire 0 []]

/-- The message is in no thread, and the first firing takes it off the screen. -/
theorem sentEarly_lost :
    let s := Runs.run step annAndBob (sentEarly.take 2)
    let s' := Runs.run step annAndBob sentEarly
    Initial annAndBob ∧ s.messages 0 = [⟨"1", "hello", (100, 0), "a", "ann"⟩] ∧
      (s'.chats.screens 0).docReference = some "k" ∧ s'.messages 0 = [] ∧
      (s'.threads "k").entries.length = 0 ∧ s'.sent.map Sent.document = [none] ∧
      ¬ Runs.Always step Delivered annAndBob sentEarly := by
  intro s s'
  have hsent : s'.sent = [⟨0, ⟨"1", "hello", (100, 0), "a", "ann"⟩, none, .issued⟩] := rfl
  refine ⟨initial_annAndBob, by decide +kernel, by decide +kernel, by decide +kernel,
    by decide +kernel, by decide +kernel, fun h => ?_⟩
  have hend : Delivered s' := h.last
  have hshown := hend.shown _ (by rw [hsent]; exact List.mem_singleton_self _) (by decide +kernel)
  exact absurd hshown (by decide +kernel)

/-- Ann sends when the chat is loaded; the listener fires before and after the server has
stored the message. -/
def sentLater : List Action :=
  [.chat (.loadChat 0)] ++ loaded ++ [.send 0 "hello" "1" (100, 0) "x", .fire 0 [], .store "1",
    .acknowledge "1", .fire 0 ["x"]]

theorem delivered_iff_steps_sentLater :
    (Runs.run step annAndBob sentLater).messages 0 = [⟨"1", "hello", (100, 0), "a", "ann"⟩] ∧
      Runs.Always step Delivered annAndBob sentLater :=
  ⟨by decide +kernel, (delivered_iff_steps initial_annAndBob sentLater).mpr (by decide +kernel)⟩

end JamSession.Threads
