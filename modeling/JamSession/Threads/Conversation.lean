import JamSession.Threads.Delivery

/-! A conversation is between its two users. A thread grows by messages of screens that refer
to its chat, a listener rebuilds a list from the thread of a chat that it was attached for, and
the chat of a reference or of a listener has both users of the screen. So what a screen shows
was written by one of its two users, under the sender's own name and uuid. And two screens that
listen to one thread show the same list when both have seen all of it. -/

namespace JamSession.Threads

open Chats (HasUser)

section

variable [UIKit]

/-- The message has the uuid and the name of the user whose screen sent it. -/
def Authentic (s : State) (x : Sent) : Prop :=
  x.message.senderID = (s.chats.screens x.screen).currentUser ∧
    x.message.senderName = s.usernames x.screen

/-- The message is the screen's own, or was sent to a chat of the screen's two users. -/
def ComesTo (s : State) (v : ℕ) (x : Sent) : Prop :=
  x.screen = v ∨ ∃ p : String × String, x.document = some p ∧ OfConversation s v p.1

/-- What is known of the messages, the listeners and the lists. -/
structure Between (s : State) : Prop where
  kept : Kept s
  listeners : ∀ p ∈ s.listeners, OfConversation s p.1 p.2
  authentic : ∀ x ∈ s.sent, Authentic s x
  messages : ∀ v, ∀ m ∈ s.messages v, ∃ x ∈ s.sent, x.message = m ∧ ComesTo s v x

/-! ### Steps -/

section Steps

variable {s : State}

theorem Initial.between (h : Initial s) : Between s := by
  refine ⟨h.kept, fun p hp => ?_, fun x hx => ?_, fun v m hm => ?_⟩
  · rw [h.listeners] at hp
    cases hp
  · rw [h.sent] at hx
    cases hx
  · rw [h.messages] at hm
    cases hm

/-- The chat that a listener is attached for is one of the screen's two users. -/
theorem attached_ofConversation (h : Chats.Known s.chats) {a : Chats.Action} {p : ℕ × String}
    (hp : attached s.chats a = some p) : OfConversation s p.1 p.2 := by
  unfold attached at hp
  split at hp
  · next i err =>
    split at hp
    · next v documents ht =>
      have hknown : Chats.TaskKnown s.chats (.answered v (some documents)) :=
        h.tasks _ (List.mem_of_getElem? ht)
      obtain ⟨chat, hchat, rfl⟩ := Option.map_eq_some_iff.mp hp
      obtain ⟨⟨id, d⟩, hfind, rfl⟩ := Option.map_eq_some_iff.mp hchat
      obtain ⟨hd, hcur⟩ := hknown _ (List.mem_of_find?_eq_some hfind)
      have htarget := List.find?_some hfind
      simp only [Option.any_eq_true, decide_eq_true_eq] at htarget
      obtain ⟨target, ht, users, hu, hin⟩ := htarget
      exact ⟨d, target, hd, ht, hcur, users, hu, hin⟩
    · cases hp
  · cases hp

theorem Between.chat (h : Between s) (a : Chats.Action) : Between (step s (.chat a)) := by
  have hext : Chats.Extends s.chats (Chats.step s.chats a) := Chats.step_extends _ _
  have hof : ∀ {v chat}, OfConversation s v chat → OfConversation (step s (.chat a)) v chat :=
    fun hc => hc.extends hext
  refine ⟨h.kept.chat a, fun p hp => ?_, fun x hx => ?_, fun v m hm => ?_⟩
  · rcases List.mem_append.mp hp with hp | hp
    · exact hof (h.listeners p hp)
    · exact hof (attached_ofConversation h.kept.chats (Option.mem_toList.mp hp))
  · exact ⟨(h.authentic x hx).1.trans (hext.currentUser x.screen).symm, (h.authentic x hx).2⟩
  · obtain ⟨x, hx, hxm, hcomes⟩ := h.messages v m hm
    refine ⟨x, hx, hxm, hcomes.imp id ?_⟩
    rintro ⟨p, hp, hc⟩
    exact ⟨p, hp, hof hc⟩

theorem Between.send (h : Between s) {v : ℕ} {text id docId : String} {created : Timestamp}
    (hf : Fresh s id docId) : Between (didPressSendButton s v text id created docId) := by
  have hold : ∀ w, ∀ m ∈ s.messages w, ∃ x ∈ (didPressSendButton s v text id created docId).sent,
      x.message = m ∧ ComesTo s w x := by
    intro w m hm
    obtain ⟨x, hx, hxm, hcomes⟩ := h.messages w m hm
    exact ⟨x, List.mem_append_left _ hx, hxm, hcomes⟩
  refine ⟨h.kept.send hf, h.listeners, fun x hx => ?_, fun w m hm => ?_⟩
  · rcases List.mem_append.mp hx with hx | hx
    · exact h.authentic x hx
    · rw [List.mem_singleton.mp hx]
      exact ⟨rfl, rfl⟩
  · by_cases hw : w = v
    · subst hw
      simp only [didPressSendButton, save, insertNewMessage, Function.update_self] at hm
      rcases List.mem_append.mp hm with hm | hm
      · exact hold w m hm
      · exact ⟨_, List.mem_append_right _ (List.mem_singleton_self _),
          (List.mem_singleton.mp hm).symm, Or.inl rfl⟩
    · simp only [didPressSendButton, save, insertNewMessage, Function.update_of_ne hw] at hm
      exact hold w m hm

/-- Only the stages of the messages change. -/
theorem Between.advance (h : Between s) {id : String} {stage : Stage}
    {threads : String → OrderedMap String Dict}
    (hk : Kept { s with threads := threads, sent := s.sent.map (Sent.advance id stage) }) :
    Between { s with threads := threads, sent := s.sent.map (Sent.advance id stage) } := by
  refine ⟨hk, h.listeners, fun y hy => ?_, fun v m hm => ?_⟩
  · obtain ⟨x, hx, rfl⟩ := List.mem_map.mp hy
    rw [Authentic, advance_message, advance_screen]
    exact h.authentic x hx
  · obtain ⟨x, hx, hxm, hcomes⟩ := h.messages v m hm
    refine ⟨_, List.mem_map_of_mem hx, by rw [advance_message, hxm], ?_⟩
    rw [ComesTo, advance_screen, advance_document]
    exact hcomes

theorem Between.store (h : Between s) (id : String) : Between (store s id) := by
  have hk := h.kept.store id
  unfold Threads.store at hk ⊢
  split at hk
  · exact h
  · split at hk
    · exact h
    · exact h.advance hk

theorem Between.acknowledge (h : Between s) (id : String) : Between (acknowledge s id) := by
  have hk := h.kept.acknowledge id
  unfold Threads.acknowledge at hk ⊢
  split at hk
  · exact h
  · exact h.advance hk

/-- A firing lists messages of a chat of the listener's screen. -/
theorem Between.fire (h : Between s) {v : ℕ} {chat : String} (seen : List String)
    (hc : OfConversation s v chat) : Between (fire s v chat seen) := by
  have hk := h.kept.fire v chat seen
  obtain ⟨messages, hfired, -, hmem⟩ := h.kept.threadChanged v chat seen
  simp only [Threads.fire, hfired] at hk ⊢
  refine ⟨hk, h.listeners, h.authentic, fun w m hm => ?_⟩
  by_cases hw : w = v
  · subst hw
    simp only [Function.update_self] at hm
    obtain ⟨x, hx, hxm, id, hdoc, -⟩ := (hmem m).mp hm
    exact ⟨x, hx, hxm, Or.inr ⟨_, hdoc, hc⟩⟩
  · simp only [Function.update_of_ne hw] at hm
    exact h.messages w m hm

theorem Between.step (h : Between s) (a : Action) : Between (step s a) := by
  cases a with
  | chat a => exact h.chat a
  | send v text id created docId =>
    simp only [Threads.step]
    split_ifs with hf
    · exact h.send hf
    · exact h
  | store id => exact h.store id
  | acknowledge id => exact h.acknowledge id
  | fire l seen =>
    simp only [Threads.step]
    split
    · next v chat hl => exact h.fire seen (h.listeners _ (List.mem_of_getElem? hl))
    · exact h

end Steps

/-! ### Private conversations -/

/-- A stored message was sent under its sender's name by a participant of its chat. What a
screen shows is its own or was sent by a participant of a chat of its user; on a screen of two
distinct users, it was sent by one of the two on a screen for one of the two. -/
structure Private (s : State) : Prop where
  stored : ∀ chat docId d, (s.threads chat).get? docId = some d → ∃ x ∈ s.sent,
    d = saveData x.message ∧ Authentic s x ∧ OfConversation s x.screen chat
  shown : ∀ v, ∀ m ∈ s.messages v, ∃ x ∈ s.sent, x.message = m ∧ Authentic s x ∧
    (x.screen = v ∨ ∃ chat, OfConversation s v chat ∧ OfConversation s x.screen chat)
  between : ∀ v a b, (s.chats.screens v).currentUser = a → (s.chats.screens v).targetUser = some b →
    a ≠ b → ∀ m ∈ s.messages v, m.senderID ∈ s(a, b) ∧ ∃ x ∈ s.sent, x.message = m ∧
      ∃ target ∈ s(a, b), (s.chats.screens x.screen).targetUser = some target

/-- A user of a chat of two distinct users is one of the two. -/
theorem mem_pair_of_hasUser {d : Dict} {a b c : String} (hd : Chats.IsChat d) (hab : a ≠ b)
    (ha : HasUser d a) (hb : HasUser d b) (hc : HasUser d c) : c ∈ s(a, b) := by
  obtain ⟨x, y, rfl⟩ := hd
  simp only [HasUser, Chats.chatUsers_chatData, Option.some.injEq, exists_eq_left'] at ha hb hc
  have hpair := (Chats.pairOf_chatData_eq (Chats.pairOf_of_mem hab ha hb)).2
  rw [hpair, Sym2.mem_iff]
  simpa using hc

theorem Between.shown {s : State} (h : Between s) {v : ℕ} {m : Message} (hm : m ∈ s.messages v) :
    ∃ x ∈ s.sent, x.message = m ∧ Authentic s x ∧
      (x.screen = v ∨ ∃ chat, OfConversation s v chat ∧ OfConversation s x.screen chat) := by
  obtain ⟨x, hx, hxm, hcomes⟩ := h.messages v m hm
  refine ⟨x, hx, hxm, h.authentic x hx, hcomes.imp id ?_⟩
  rintro ⟨p, hp, hc⟩
  exact ⟨p.1, hc, h.kept.conversation x hx p hp⟩

theorem Between.isPrivate {s : State} (h : Between s) : Private s where
  stored chat docId d hd := by
    obtain ⟨x, hx, hdoc, -, hdata⟩ := (h.kept.threads chat docId d).mp hd
    exact ⟨x, hx, hdata, h.authentic x hx, h.kept.conversation x hx _ hdoc⟩
  shown v m hm := h.shown hm
  between v a b ha hb hab m hm := by
    obtain ⟨x, hx, rfl, ⟨hsender, -⟩, hown | ⟨chat, hv, hw⟩⟩ := h.shown hm
    · rw [hsender, hown, ha]
      exact ⟨Sym2.mem_mk_left a b, x, hx, rfl, b, Sym2.mem_mk_right a b, by rw [hown, hb]⟩
    · obtain ⟨d, b', hd, hb', hda, hdb⟩ := hv
      obtain ⟨d', target, hd', htarget, hdc, hdt⟩ := hw
      obtain rfl : b' = b := Option.some.inj (hb'.symm.trans hb)
      obtain rfl : d' = d := Option.some.inj (hd'.symm.trans hd)
      rw [ha] at hda
      have hmem := fun {c} => mem_pair_of_hasUser (c := c) (h.kept.chats.chats _ _ hd) hab hda hdb
      rw [hsender]
      exact ⟨hmem hdc, x, hx, rfl, target, hmem hdt, htarget⟩

/-- In every state of every run conversations are private and senders are who they say. -/
theorem private_run {s : State} (hs : Initial s) (as : List Action) :
    Runs.Always step Private s as :=
  (Runs.always_of_invariant (I := Between) (fun _ a h => h.step a) hs.between as).mono
    fun _ h => h.isPrivate

/-! ### Two ends of one thread -/

/-- Every message of the chat is acknowledged, and the snapshot includes it. -/
def CaughtUp (s : State) (chat : String) (seen : List String) : Prop :=
  ∀ x ∈ s.sent, ∀ id, x.document = some (chat, id) → x.stage = .acknowledged ∧ id ∈ seen

instance (s : State) (chat : String) (seen : List String) : Decidable (CaughtUp s chat seen) :=
  decidable_of_iff (∀ x ∈ s.sent, ∀ p ∈ x.document, p.1 = chat →
      x.stage = .acknowledged ∧ p.2 ∈ seen) <| by
    constructor
    · exact fun h x hx id hdoc => h x hx _ hdoc rfl
    · rintro h x hx ⟨c, id⟩ hdoc rfl
      exact h x hx id hdoc

section Agreement

variable {s : State} {chat : String} {seen : List String}

/-- A client that has caught up knows the thread as it is stored. -/
theorem Kept.view_eq (h : Kept s) (hc : CaughtUp s chat seen) (v : ℕ) :
    view s v chat seen = s.threads chat := by
  refine OrderedMap.ext_get? fun id => Option.ext fun d => ?_
  rw [h.view_get?, h.threads]
  constructor
  · rintro ⟨x, hx, hdoc, -, hdata⟩
    exact ⟨x, hx, hdoc, by simp [(hc x hx id hdoc).1], hdata⟩
  · rintro ⟨x, hx, hdoc, hstage, hdata⟩
    exact ⟨x, hx, hdoc, Or.inl ⟨hstage, (hc x hx id hdoc).2⟩, hdata⟩

/-- The list is made of the messages that were sent to the chat, each once, by their times. -/
structure ListsThread (s : State) (chat : String) (messages : List Message) : Prop where
  ordered : ordered (s.threads chat) = messages.map saveData
  sorted : messages.Pairwise fun m m' => m.created ≤ m'.created
  nodup : messages.Nodup
  mem : ∀ m, m ∈ messages ↔ ∃ x ∈ s.sent, x.message = m ∧ x.document.map Prod.fst = some chat

theorem Kept.fire_caughtUp (h : Kept s) (hc : CaughtUp s chat seen) (v : ℕ) :
    ListsThread s chat ((Threads.fire s v chat seen).messages v) := by
  obtain ⟨messages, hfired, hnodup, hmem⟩ := h.threadChanged v chat seen
  have hsaved : Saved (s.threads chat) := fun id d hd => by
    obtain ⟨x, -, -, -, hdata⟩ := (h.threads chat id d).mp hd
    exact ⟨x.message, hdata⟩
  obtain ⟨messages', hdocs, hsorted, -, hlist⟩ := threadChanged_saved hsaved
  have heq : messages' = messages := by
    have hboth := hlist (s.messages v)
    rw [← h.view_eq hc v, hfired] at hboth
    exact (Option.some.inj hboth).symm
  have hlists : (Threads.fire s v chat seen).messages v = messages := by
    simp only [Threads.fire, hfired, Function.update_self]
  subst heq
  rw [hlists]
  refine ⟨hdocs, hsorted, hnodup, fun m => ?_⟩
  rw [hmem]
  constructor
  · rintro ⟨x, hx, hxm, id, hdoc, -⟩
    exact ⟨x, hx, hxm, by rw [hdoc]; rfl⟩
  · rintro ⟨x, hx, hxm, hdoc⟩
    obtain ⟨⟨c, id⟩, hp, rfl⟩ := Option.map_eq_some_iff.mp hdoc
    obtain ⟨hstage, hseen⟩ := hc x hx id hp
    exact ⟨x, hx, hxm, id, hp, Or.inl ⟨by simp [hstage], hseen⟩⟩

theorem ListsThread.unique {messages messages' : List Message} (h : ListsThread s chat messages)
    (h' : ListsThread s chat messages') : messages = messages' :=
  List.map_injective_iff.mpr saveData_injective (h.ordered.symm.trans h'.ordered)

/-- The list of a screen is that of the thread, and so are all lists with it. -/
structure ShowsThread (v : ℕ) (chat : String) (s : State) : Prop where
  lists : ListsThread s chat (s.messages v)
  agree : ∀ w, ListsThread s chat (s.messages w) → s.messages w = s.messages v

/-- A listener of the screen fires on the chat, having caught up. -/
def CatchesUp (v : ℕ) (chat : String) (s : State) (a : Action) : Prop :=
  ∃ l seen, a = .fire l seen ∧ s.listeners[l]? = some (v, chat) ∧ CaughtUp s chat seen

/-- A message is sent to the chat or on the screen, or a listener of the screen fires. -/
def Disturbs (v : ℕ) (chat : String) (s : State) : Action → Prop
  | .send w _ _ _ _ => w = v ∨ (s.chats.screens w).docReference = some chat
  | .fire l _ => ∃ chat', s.listeners[l]? = some (v, chat')
  | _ => False

/-- The messages of the chat are acknowledged, and the screen lists them. -/
structure AtRest (v : ℕ) (chat : String) (s : State) : Prop where
  acknowledged : ∀ x ∈ s.sent, x.document.map Prod.fst = some chat → x.stage = .acknowledged
  lists : ListsThread s chat (s.messages v)

variable {v : ℕ}

theorem AtRest.shows (h : AtRest v chat s) : ShowsThread v chat s :=
  ⟨h.lists, fun _ hw => hw.unique h.lists⟩

/-- Nothing of the chat and of the screen changes. -/
theorem AtRest.congr {s' : State} (h : AtRest v chat s) (hthread : s'.threads chat = s.threads chat)
    (hmessages : s'.messages v = s.messages v)
    (hsent : ∀ x, x.document.map Prod.fst = some chat → (x ∈ s'.sent ↔ x ∈ s.sent)) :
    AtRest v chat s' where
  acknowledged x hx hdoc := h.acknowledged x ((hsent x hdoc).mp hx) hdoc
  lists := by
    rw [hmessages]
    refine ⟨by rw [hthread, h.lists.ordered], h.lists.sorted, h.lists.nodup, fun m => ?_⟩
    rw [h.lists.mem]
    constructor
    · rintro ⟨x, hx, hxm, hdoc⟩
      exact ⟨x, (hsent x hdoc).mpr hx, hxm, hdoc⟩
    · rintro ⟨x, hx, hxm, hdoc⟩
      exact ⟨x, (hsent x hdoc).mp hx, hxm, hdoc⟩

theorem Kept.fire_atRest (h : Kept s) (hc : CaughtUp s chat seen) :
    AtRest v chat (Threads.fire s v chat seen) := by
  have hlists := h.fire_caughtUp hc v
  obtain ⟨messages, hfired, -⟩ := h.threadChanged v chat seen
  have hstate : (Threads.fire s v chat seen).threads = s.threads ∧
      (Threads.fire s v chat seen).sent = s.sent := by
    simp only [Threads.fire, hfired, and_self]
  refine ⟨fun x hx hdoc => ?_, ?_⟩
  · obtain ⟨⟨c, id⟩, hp, rfl⟩ := Option.map_eq_some_iff.mp hdoc
    exact (hc x (hstate.2 ▸ hx) id hp).1
  · exact ⟨by rw [hstate.1, hlists.ordered], hlists.sorted, hlists.nodup,
      by rw [hstate.2]; exact hlists.mem⟩

/-- A message that is not of the chat comes to a further stage. -/
theorem AtRest.advance (hk : Kept s) (h : AtRest v chat s) {x : Sent} (hx : x ∈ s.sent)
    (hstage : x.stage ≠ .acknowledged) {stage : Stage} {threads : String → OrderedMap String Dict}
    (hthread : threads chat = s.threads chat) : AtRest v chat
      { s with threads := threads, sent := s.sent.map (Sent.advance x.message.id stage) } := by
  have hsame : ∀ y ∈ s.sent, y.document.map Prod.fst = some chat →
      y.advance x.message.id stage = y := by
    intro y hy hdoc
    unfold Sent.advance
    refine if_neg fun hid => hstage ?_
    rw [← hk.eq_of_id hy hx hid]
    exact h.acknowledged y hy hdoc
  refine h.congr hthread rfl fun y hdoc => ?_
  constructor
  · rintro hy
    obtain ⟨z, hz, rfl⟩ := List.mem_map.mp hy
    rw [advance_document] at hdoc
    rwa [hsame z hz hdoc]
  · intro hy
    exact List.mem_map.mpr ⟨y, hy, hsame y hy hdoc⟩

theorem AtRest.send (h : AtRest v chat s) {w : ℕ} {text id docId : String} {created : Timestamp}
    (hw : w ≠ v) (href : (s.chats.screens w).docReference ≠ some chat) :
    AtRest v chat (didPressSendButton s w text id created docId) := by
  refine h.congr rfl ?_ fun x hdoc => ?_
  · simp only [didPressSendButton, save, insertNewMessage, Function.update_of_ne (Ne.symm hw)]
  · simp only [didPressSendButton, save, insertNewMessage, List.mem_append, List.mem_singleton]
    refine or_iff_left fun hnew => href ?_
    rw [hnew, Option.map_map] at hdoc
    simpa using hdoc

theorem AtRest.step (hk : Kept s) (h : AtRest v chat s) {a : Action} (ha : ¬ Disturbs v chat s a) :
    AtRest v chat (step s a) := by
  cases a with
  | chat a => exact h.congr rfl rfl fun _ _ => Iff.rfl
  | send w text id created docId =>
    obtain ⟨hw, href⟩ := not_or.mp ha
    simp only [Threads.step]
    split_ifs
    · exact h.send hw href
    · exact h
  | store id =>
    simp only [Threads.step, Threads.store]
    split
    · exact h
    · next x hfind =>
      obtain ⟨hx, rfl, hstage⟩ := mem_of_find hfind
      split
      · exact h
      · next chat' docId hdoc =>
        refine h.advance hk hx (by simp [hstage]) (Function.update_of_ne ?_ _ _)
        -- a message of the chat would be acknowledged
        rintro rfl
        have hack := h.acknowledged x hx (by rw [hdoc]; rfl)
        rw [hstage] at hack
        cases hack
  | acknowledge id =>
    simp only [Threads.step, Threads.acknowledge]
    split
    · exact h
    · next x hfind =>
      obtain ⟨hx, rfl, hstage⟩ := mem_of_find hfind
      exact h.advance hk hx (by simp [hstage]) rfl
  | fire l seen =>
    simp only [Threads.step]
    split
    · next w chat' hl =>
      have hw : v ≠ w := by
        rintro rfl
        exact ha ⟨chat', hl⟩
      obtain ⟨messages, hfired, -⟩ := hk.threadChanged w chat' seen
      simp only [Threads.fire, hfired]
      exact h.congr rfl (Function.update_of_ne hw _ _) fun _ _ => Iff.rfl
    · exact h

/-- A screen that has caught up with a thread shows it, message for message like every other
screen that shows it, until a message is sent to the chat or on the screen or a listener of the
screen fires again. -/
theorem showsThread_run {s : State} (hs : Initial s) (v : ℕ) (chat : String) (as : List Action) :
    Runs.After step (CatchesUp v chat) (ShowsThread v chat) (Disturbs v chat) s as := by
  refine Runs.after_of_each (I := Kept) (C := fun _ _ => True) (J := AtRest v chat)
    (fun s h => h.shows) (fun s a h _ => h.step a) ?_ (fun s a h _ hrest => hrest.step h) hs.kept
    (Runs.each_of_forall (fun _ _ => trivial) s as)
  rintro s a h - ⟨l, seen, rfl, hl, hc⟩
  simp only [step, hl]
  exact h.fire_atRest hc

end Agreement

end

open PlainKit

/-- Bob's screen finds the chat that Ann's has created, and each of the two sends a message. -/
def bothWays : List Action := [.chat (.loadChat 0)] ++ loaded ++
  [.chat (.loadChat 1), .chat (.advance 0 false), .chat (.advance 0 false),
    .send 0 "hello" "1" (100, 0) "y", .send 1 "hi" "2" (100, 5) "x", .store "2", .store "1",
    .acknowledge "1", .acknowledge "2", .fire 0 ["x", "y"], .fire 1 ["x", "y"]]

theorem private_run_bothWays :
    (Runs.run step annAndBob bothWays).messages 1 =
        [⟨"1", "hello", (100, 0), "a", "ann"⟩, ⟨"2", "hi", (100, 5), "b", "bob"⟩] ∧
      Runs.Always step Private annAndBob bothWays :=
  ⟨by decide +kernel, private_run initial_annAndBob bothWays⟩

/-- The last step of the run catches Bob's screen up. -/
theorem showsThread_run_bothWays :
    CatchesUp 1 "k" (Runs.run step annAndBob bothWays.dropLast) (.fire 1 ["x", "y"]) ∧
      Runs.After step (CatchesUp 1 "k") (ShowsThread 1 "k") (Disturbs 1 "k") annAndBob bothWays :=
  ⟨⟨1, ["x", "y"], rfl, by decide +kernel, by decide +kernel⟩,
    showsThread_run initial_annAndBob 1 "k" bothWays⟩

end JamSession.Threads
