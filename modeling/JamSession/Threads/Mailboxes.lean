import JamSession.Library.Mailbox
import JamSession.Threads.Conversation

/-! What the chats are for: one mailbox for each pair of users. The server adds a message to the
mailbox when it stores the `addDocument`. As long as each new chat is stored while the answer it
was decided on still holds, the thread of a pair's chat holds the messages of its mailbox, each
in one document, and the screens of both users read it. -/

namespace JamSession.Threads

open Chats (pairOf)

section

variable [UIKit]

/-- The message as a mail of the screen's user to the target user. -/
def mailOf (s : State) (x : Sent) : Option (Mail String Message) :=
  match x.document with
  | some _ => (s.chats.screens x.screen).targetUser.map fun target =>
      ⟨(s.chats.screens x.screen).currentUser, target, x.message⟩
  | none => none

/-- The mail that a step delivers. -/
def delivered (s : State) : Action → List (Mail String Message)
  | .store id => match s.sent.find? fun x => x.message.id = id ∧ x.stage = .issued with
    | some x => (mailOf s x).toList
    | none => []
  | _ => []

/-- The condition on a step: a new chat is stored while the answer it was decided on still
holds, and a screen that sends is one of two different users. -/
def KeepsPairs (s : State) : Action → Prop
  | .chat a => Chats.AnswerHolds s.chats a
  | .send v _ _ _ _ => (s.chats.screens v).targetUser ≠ some (s.chats.screens v).currentUser
  | _ => True

instance (s : State) : ∀ a, Decidable (KeepsPairs s a)
  | .chat a => inferInstanceAs (Decidable (Chats.AnswerHolds s.chats a))
  | .send v _ _ _ _ => inferInstanceAs
      (Decidable ((s.chats.screens v).targetUser ≠ some (s.chats.screens v).currentUser))
  | .store _ | .acknowledge _ | .fire _ _ => isTrue trivial

/-- The threads are the mailboxes. The documents of a pair's thread are the messages of its
mailbox, the mailbox of a pair without a chat is empty, and a listener of a screen of two
different users that fires and has caught up lists their mailbox, by the times of the messages. -/
structure ServesMailboxes (s : State) (b : Sym2 String → List Message) : Prop where
  thread : ∀ chat d e, s.chats.chats.get? chat = some d → pairOf d = some e →
    ((s.threads chat).entries.map Prod.snd).Perm ((b e).map saveData)
  empty : ∀ e, (∀ chat d, s.chats.chats.get? chat = some d → pairOf d ≠ some e) → b e = []
  reads : ∀ l seen v chat a c, s.listeners[l]? = some (v, chat) → CaughtUp s chat seen →
    (s.chats.screens v).currentUser = a → (s.chats.screens v).targetUser = some c → a ≠ c →
    ((step s (.fire l seen)).messages v).Perm (b s(a, c)) ∧
      ((step s (.fire l seen)).messages v).Pairwise fun m m' => m.created ≤ m'.created

/-! ### The simulation -/

/-- The message was stored, and it is one of the two users. -/
def Reached (s : State) (e : Sym2 String) (x : Sent) : Prop :=
  x.stage ≠ .issued ∧ ∃ y, mailOf s x = some y ∧ y.users = e

/-- The mailboxes hold the messages that were stored. -/
structure Carries (s : State) (b : Sym2 String → List Message) : Prop where
  between : Between s
  distinct : s.chats.chats.Distinct pairOf
  toOther : ∀ x ∈ s.sent,
    (s.chats.screens x.screen).targetUser ≠ some (s.chats.screens x.screen).currentUser
  mem : ∀ e m, m ∈ b e ↔ ∃ x ∈ s.sent, x.message = m ∧ Reached s e x
  nodup : ∀ e, (b e).Nodup

variable {s : State} {b : Sym2 String → List Message}

theorem mailOf_eq_some {x : Sent} {y : Mail String Message} : mailOf s x = some y ↔
    x.document.isSome ∧ (s.chats.screens x.screen).targetUser = some y.receiver ∧
      y.sender = (s.chats.screens x.screen).currentUser ∧ y.content = x.message := by
  unfold mailOf
  split
  · next p hdoc =>
    rw [Option.map_eq_some_iff, hdoc]
    constructor
    · rintro ⟨target, ht, rfl⟩
      exact ⟨rfl, ht, rfl, rfl⟩
    · rintro ⟨-, ht, hs, hc⟩
      exact ⟨y.receiver, ht, by rw [← hs, ← hc]⟩
  · next hdoc => simp [hdoc]

theorem mailOf_content {x : Sent} {y : Mail String Message} (h : mailOf s x = some y) :
    y.content = x.message :=
  (mailOf_eq_some.mp h).2.2.2

theorem mailOf_extends {s' : State} (h : Chats.Extends s.chats s'.chats) (x : Sent) :
    mailOf s' x = mailOf s x := by
  simp only [mailOf, h.currentUser, h.targetUser]

@[simp] theorem mailOf_advance (id : String) (stage : Stage) (x : Sent) :
    mailOf s (x.advance id stage) = mailOf s x := by
  simp only [mailOf, advance_document, advance_screen, advance_message]

/-- No two documents of a thread hold one message. -/
theorem Kept.nodup_thread (h : Kept s) (chat : String) :
    ((s.threads chat).entries.map Prod.snd).Nodup := by
  refine OrderedMap.nodup_values fun j k d hj hk => ?_
  obtain ⟨x, hx, hdoc, -, hdata⟩ := (h.threads chat j d).mp hj
  obtain ⟨y, hy, hdoc', -, hdata'⟩ := (h.threads chat k d).mp hk
  have hm := saveData_injective (hdata.symm.trans hdata')
  rw [h.eq_of_id hx hy (congrArg Message.id hm), hdoc'] at hdoc
  cases hdoc
  rfl

/-- Of all messages only the one that is stored comes to be so. -/
theorem Kept.reached_stored (h : Kept s) {x z : Sent} (hx : x ∈ s.sent) (hz : z ∈ s.sent)
    {y : Mail String Message} (hy : mailOf s x = some y) {e : Sym2 String} :
    Reached s e (z.advance x.message.id .stored) ↔ Reached s e z ∨ z = x ∧ y.users = e := by
  rw [Reached, mailOf_advance, advance_stage]
  split_ifs with hid
  · obtain rfl := h.eq_of_id hz hx hid
    have hmail : (∃ y', mailOf s z = some y' ∧ y'.users = e) ↔ y.users = e := by simp [hy]
    rw [Reached, hmail]
    constructor
    · rintro ⟨-, hu⟩
      exact Or.inr ⟨rfl, hu⟩
    · rintro (⟨-, hu⟩ | ⟨-, hu⟩) <;> exact ⟨by simp, hu⟩
  · have hne : z ≠ x := fun heq => hid (by rw [heq])
    simp only [Reached, hne, false_and, or_false]

/-- A message that is acknowledged was stored before. -/
theorem Kept.reached_acknowledged (h : Kept s) {x z : Sent} (hx : x ∈ s.sent) (hz : z ∈ s.sent)
    (hstage : x.stage = .stored) {e : Sym2 String} :
    Reached s e (z.advance x.message.id .acknowledged) ↔ Reached s e z := by
  rw [Reached, Reached, mailOf_advance, advance_stage]
  refine and_congr_left fun _ => ?_
  split_ifs with hid
  · rw [h.eq_of_id hz hx hid, hstage]
    simp
  · rfl

namespace Carries

theorem chat (h : Carries s b) {a : Chats.Action} (ha : Chats.AnswerHolds s.chats a) :
    Carries (step s (.chat a)) b := by
  have hext : Chats.Extends s.chats (Chats.step s.chats a) := Chats.step_extends _ _
  refine ⟨h.between.chat a, (Chats.distinct_step_iff h.between.kept.chats h.distinct a).mpr ha,
    fun x hx => ?_, fun e m => ?_, h.nodup⟩
  · have hne := h.toOther x hx
    rwa [← hext.targetUser, ← hext.currentUser] at hne
  · rw [h.mem]
    refine exists_congr fun x => and_congr_right fun _ => and_congr_right fun _ => ?_
    have hmail : mailOf (step s (.chat a)) x = mailOf s x := mailOf_extends hext x
    rw [Reached, Reached, hmail]

theorem send (h : Carries s b) {v : ℕ} {text id docId : String} {created : Timestamp}
    (hf : Fresh s id docId)
    (hv : (s.chats.screens v).targetUser ≠ some (s.chats.screens v).currentUser) :
    Carries (didPressSendButton s v text id created docId) b := by
  refine ⟨h.between.send hf, h.distinct, fun x hx => ?_, fun e m => ?_, h.nodup⟩
  · rcases List.mem_append.mp hx with hx | hx
    · exact h.toOther x hx
    · rw [List.mem_singleton.mp hx]
      exact hv
  · rw [h.mem]
    constructor
    · rintro ⟨x, hx, hxm, hr⟩
      exact ⟨x, List.mem_append_left _ hx, hxm, hr⟩
    · rintro ⟨x, hx, hxm, hr⟩
      rcases List.mem_append.mp hx with hx | hx
      · exact ⟨x, hx, hxm, hr⟩
      · rw [List.mem_singleton.mp hx] at hr
        exact absurd rfl hr.1

/-- A message that was not stored is in no mailbox. -/
theorem not_mem (h : Carries s b) {x : Sent} (hx : x ∈ s.sent) (hstage : x.stage = .issued)
    (e : Sym2 String) : x.message ∉ b e := by
  intro hm
  obtain ⟨y, hy, hym, hr, -⟩ := (h.mem e _).mp hm
  rw [h.between.kept.eq_of_id hy hx (congrArg Message.id hym)] at hr
  exact hr hstage

/-- A message has come to a further stage, and the mailboxes hold what was stored. -/
theorem advance (h : Carries s b) {id : String} {stage : Stage}
    {threads : String → OrderedMap String Dict} {b' : Sym2 String → List Message}
    (hb : Between { s with threads := threads, sent := s.sent.map (Sent.advance id stage) })
    (hmem : ∀ e m, m ∈ b' e ↔
      ∃ x ∈ s.sent, x.message = m ∧ Reached s e (x.advance id stage))
    (hnodup : ∀ e, (b' e).Nodup) :
    Carries { s with threads := threads, sent := s.sent.map (Sent.advance id stage) } b' := by
  refine ⟨hb, h.distinct, fun y hy => ?_, fun e m => ?_, hnodup⟩
  · obtain ⟨x, hx, rfl⟩ := List.mem_map.mp hy
    rw [advance_screen]
    exact h.toOther x hx
  · rw [hmem]
    simp only [List.mem_map, exists_exists_and_eq_and, advance_message]
    rfl

theorem store (h : Carries s b) (id : String) :
    Carries (store s id) (Runs.run Mail.deliver b (delivered s (.store id))) := by
  have hb := h.between.store id
  unfold Threads.store at hb ⊢
  unfold delivered
  split at hb
  · next hfind =>
    simp only [hfind]
    exact h
  · next x hfind =>
    obtain ⟨hx, rfl, hstage⟩ := mem_of_find hfind
    simp only [hfind]
    split at hb
    · next hdoc =>
      have hnone : mailOf s x = none := by rw [mailOf, hdoc]
      simp only [hnone]
      exact h
    · next chat docId hdoc =>
      obtain ⟨d, target, hd, ht, hcur, htar⟩ := h.between.kept.conversation x hx _ hdoc
      obtain ⟨y, hy⟩ : ∃ y, mailOf s x = some y := by simp [mailOf, hdoc, ht]
      simp only [hy, Option.toList_some, Runs.run_cons, Runs.run_nil]
      refine h.advance hb (fun e m => ?_) fun e => ?_
      · rw [Mail.mem_deliver, h.mem, mailOf_content hy]
        constructor
        · rintro (⟨z, hz, hzm, hr⟩ | ⟨hu, rfl⟩)
          · exact ⟨z, hz, hzm, (h.between.kept.reached_stored hx hz hy).mpr (Or.inl hr)⟩
          · exact ⟨x, hx, rfl, (h.between.kept.reached_stored hx hx hy).mpr (Or.inr ⟨rfl, hu⟩)⟩
        · rintro ⟨z, hz, hzm, hr⟩
          rcases (h.between.kept.reached_stored hx hz hy).mp hr with hr | ⟨rfl, hu⟩
          · exact Or.inl ⟨z, hz, hzm, hr⟩
          · exact Or.inr ⟨hu, hzm⟩
      · refine Mail.nodup_deliver (h.nodup e) ?_
        rw [mailOf_content hy]
        exact h.not_mem hx hstage e

theorem acknowledge (h : Carries s b) (id : String) : Carries (acknowledge s id) b := by
  have hb := h.between.acknowledge id
  unfold Threads.acknowledge at hb ⊢
  split at hb
  · exact h
  · next x hfind =>
    obtain ⟨hx, rfl, hstage⟩ := mem_of_find hfind
    refine h.advance hb (fun e m => ?_) h.nodup
    rw [h.mem]
    exact exists_congr fun z => and_congr_right fun hz => and_congr_right fun _ =>
      (h.between.kept.reached_acknowledged hx hz hstage).symm

theorem fire (h : Carries s b) {v : ℕ} {chat : String} (seen : List String)
    (hc : OfConversation s v chat) : Carries (fire s v chat seen) b := by
  have hb := h.between.fire seen hc
  obtain ⟨messages, hfired, -⟩ := h.between.kept.threadChanged v chat seen
  simp only [Threads.fire, hfired] at hb ⊢
  exact ⟨hb, h.distinct, h.toOther, h.mem, h.nodup⟩

theorem step (h : Carries s b) {a : Action} (ha : KeepsPairs s a) :
    Carries (step s a) (Runs.run Mail.deliver b (delivered s a)) := by
  cases a with
  | chat a => exact h.chat ha
  | send v text id created docId =>
    simp only [Threads.step]
    split_ifs with hf
    · exact h.send hf ha
    · exact h
  | store id => exact h.store id
  | acknowledge id => exact h.acknowledge id
  | fire l seen =>
    simp only [Threads.step]
    split
    · next v chat hl => exact h.fire seen (h.between.listeners _ (List.mem_of_getElem? hl))
    · exact h

/-! ### Threads and mailboxes -/

/-- The chat of a screen of two different users is of their pair. -/
theorem pair_of_conversation (h : Carries s b) {v : ℕ} {chat a c : String}
    (hc : OfConversation s v chat) (ha : (s.chats.screens v).currentUser = a)
    (ht : (s.chats.screens v).targetUser = some c) (hne : a ≠ c) :
    ∃ d, s.chats.chats.get? chat = some d ∧ pairOf d = some s(a, c) := by
  obtain ⟨d, target, hd, ht', hcur, htar⟩ := hc
  obtain rfl : target = c := Option.some.inj (ht'.symm.trans ht)
  rw [ha] at hcur
  exact ⟨d, hd, Chats.pairOf_of_hasUser (h.between.kept.chats.chats chat d hd) hne hcur htar⟩

/-- A message with a document is one of the pair of its chat. -/
theorem mail_of_document (h : Carries s b) {x : Sent} (hx : x ∈ s.sent) {p : String × String}
    (hp : x.document = some p) : ∃ d y, s.chats.chats.get? p.1 = some d ∧
      mailOf s x = some y ∧ pairOf d = some y.users := by
  obtain ⟨-, target, -, ht, -⟩ := h.between.kept.conversation x hx p hp
  have hne : (s.chats.screens x.screen).currentUser ≠ target := by
    rintro rfl
    exact h.toOther x hx ht
  obtain ⟨d, hd, hpair⟩ :=
    h.pair_of_conversation (h.between.kept.conversation x hx p hp) rfl ht hne
  exact ⟨d, ⟨_, target, x.message⟩, hd, mailOf_eq_some.mpr ⟨by simp [hp], ht, rfl, rfl⟩, hpair⟩

/-- The messages of a mailbox are those in the thread of the pair's chat. -/
theorem mem_iff_thread (h : Carries s b) {chat : String} {d : Dict} {e : Sym2 String}
    (hd : s.chats.chats.get? chat = some d) (he : pairOf d = some e) (m : Message) :
    m ∈ b e ↔ ∃ id, (s.threads chat).get? id = some (saveData m) := by
  rw [h.mem]
  constructor
  · rintro ⟨x, hx, rfl, hstage, y, hy, rfl⟩
    obtain ⟨⟨chat', id⟩, hp⟩ := Option.isSome_iff_exists.mp (mailOf_eq_some.mp hy).1
    obtain ⟨d', y', hd', hy', he'⟩ := h.mail_of_document hx hp
    obtain rfl : y' = y := Option.some.inj (hy'.symm.trans hy)
    -- the pair has one chat
    obtain rfl : chat' = chat := h.distinct _ _ d' d _ hd' hd he' he
    exact ⟨id, (h.between.kept.threads _ _ _).mpr ⟨x, hx, hp, hstage, rfl⟩⟩
  · rintro ⟨id, hid⟩
    obtain ⟨x, hx, hp, hstage, hdata⟩ := (h.between.kept.threads _ _ _).mp hid
    obtain ⟨d', y, hd', hy, he'⟩ := h.mail_of_document hx hp
    obtain rfl : d' = d := Option.some.inj (hd'.symm.trans hd)
    exact ⟨x, hx, (saveData_injective hdata).symm, hstage, y, hy,
      Option.some.inj (he'.symm.trans he)⟩

theorem thread (h : Carries s b) {chat : String} {d : Dict} {e : Sym2 String}
    (hd : s.chats.chats.get? chat = some d) (he : pairOf d = some e) :
    ((s.threads chat).entries.map Prod.snd).Perm ((b e).map saveData) := by
  have hvalues : ((s.threads chat).entries.map Prod.snd).Nodup := h.between.kept.nodup_thread chat
  refine (List.perm_ext_iff_of_nodup hvalues ((h.nodup e).map saveData_injective)).mpr fun d' => ?_
  constructor
  · intro hd'
    obtain ⟨⟨id, d'⟩, hentry, rfl⟩ := List.mem_map.mp hd'
    have hget := (s.threads chat).get?_eq_some_iff.mpr hentry
    obtain ⟨x, -, -, -, rfl⟩ := (h.between.kept.threads _ _ _).mp hget
    exact List.mem_map_of_mem ((h.mem_iff_thread hd he _).mpr ⟨id, hget⟩)
  · intro hd'
    obtain ⟨m, hm, rfl⟩ := List.mem_map.mp hd'
    obtain ⟨id, hid⟩ := (h.mem_iff_thread hd he m).mp hm
    exact List.mem_map.mpr ⟨(id, saveData m), (s.threads chat).get?_eq_some_iff.mp hid, rfl⟩

theorem reads (h : Carries s b) {v : ℕ} {chat a c : String} {seen : List String}
    (hconv : OfConversation s v chat) (hc : CaughtUp s chat seen)
    (ha : (s.chats.screens v).currentUser = a) (ht : (s.chats.screens v).targetUser = some c)
    (hne : a ≠ c) : ((Threads.fire s v chat seen).messages v).Perm (b s(a, c)) := by
  obtain ⟨d, hd, he⟩ := h.pair_of_conversation hconv ha ht hne
  have hlists := h.between.kept.fire_caughtUp hc v
  refine (List.perm_ext_iff_of_nodup hlists.nodup (h.nodup _)).mpr fun m => ?_
  rw [hlists.mem, h.mem_iff_thread hd he]
  constructor
  · rintro ⟨x, hx, rfl, hdoc⟩
    obtain ⟨⟨chat', id⟩, hp, rfl⟩ := Option.map_eq_some_iff.mp hdoc
    have hstage : x.stage ≠ .issued := by simp [(hc x hx id hp).1]
    exact ⟨id, (h.between.kept.threads _ _ _).mpr ⟨x, hx, hp, hstage, rfl⟩⟩
  · rintro ⟨id, hid⟩
    obtain ⟨x, hx, hp, -, hdata⟩ := (h.between.kept.threads _ _ _).mp hid
    exact ⟨x, hx, (saveData_injective hdata).symm, by rw [hp]; rfl⟩

theorem serves (h : Carries s b) : ServesMailboxes s b where
  thread chat d e hd he := h.thread hd he
  empty e hnone := by
    refine List.eq_nil_iff_forall_not_mem.mpr fun m hm => ?_
    obtain ⟨x, hx, -, -, y, hy, rfl⟩ := (h.mem e m).mp hm
    obtain ⟨p, hp⟩ := Option.isSome_iff_exists.mp (mailOf_eq_some.mp hy).1
    obtain ⟨d, y', hd, hy', he⟩ := h.mail_of_document hx hp
    obtain rfl : y' = y := Option.some.inj (hy'.symm.trans hy)
    exact hnone _ d hd he
  reads l seen v chat a c hl hc ha ht hne := by
    have hconv := h.between.listeners _ (List.mem_of_getElem? hl)
    simp only [Threads.step, hl]
    exact ⟨h.reads hconv hc ha ht hne, (h.between.kept.fire_caughtUp hc v).sorted⟩

end Carries

theorem Initial.carries (hs : Initial s) : Carries s fun _ => [] := by
  refine ⟨hs.between, fun j k d e p hj => ?_, fun x hx => ?_, fun e m => ?_,
    fun _ => List.nodup_nil⟩
  · rw [hs.chats.chats] at hj
    cases hj
  · rw [hs.sent] at hx
    cases hx
  · simp [hs.sent]

/-- The chats refine the mailboxes. -/
theorem mailboxes_run (hs : Initial s) {as : List Action} (has : Runs.Each step KeepsPairs s as) :
    ServesMailboxes (Runs.run step s as)
      (Runs.run Mail.deliver (fun _ => []) (Runs.labels step delivered s as)) :=
  (Runs.simulates (R := Carries) (fun _ _ _ ha h => h.step ha) hs.carries has).serves

end

open PlainKit

/-- Both users send, and both messages are stored. -/
theorem mailboxes_run_bothWays :
    ServesMailboxes (Runs.run step annAndBob bothWays)
      (Runs.run Mail.deliver (fun _ => []) (Runs.labels step delivered annAndBob bothWays)) ∧
      Runs.run Mail.deliver (fun _ => []) (Runs.labels step delivered annAndBob bothWays)
        s("a", "b") =
          [⟨"2", "hi", (100, 5), "b", "bob"⟩, ⟨"1", "hello", (100, 0), "a", "ann"⟩] :=
  ⟨mailboxes_run initial_annAndBob (by decide +kernel), by decide +kernel⟩

end JamSession.Threads
