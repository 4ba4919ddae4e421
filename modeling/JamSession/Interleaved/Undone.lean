import JamSession.Interleaved.Identity
import JamSession.Firestore.PlainKit

/-! What undoes a block or an unfriend. Every operation writes whole documents back, so a name
that was blocked is lost, and a name that was removed returns, when a document is stored from
a copy that is older than the block or the unfriend; and an accept whose delete was under way
adds the name once more. While no document is stored from such a copy, and every unfriend
removes the only occurrence of its names, both stay done. -/

namespace JamSession.Interleaved

open UserController JamSession.Sequential

section

variable [UIKit]

/-! ### Blocks and unfriends that are stored -/

/-- The document lists `x` as blocked. -/
def Blocks (dict : Dict) (x : String) : Prop := x ∈ (dict.strings "blocked").getD []

/-- A `blockUser` by `b` of a user called `x` has stored a document of `b` that lists `x`. -/
def BlockStored (log : List Event) (b x : String) : Prop :=
  ∃ k dict, .stored k (.setUser b dict) ∈ log ∧ k.op = .block ∧ k.user.username = x ∧ Blocks dict x

/-- The event stores a document of `b` for a `blockUser` of `x` that lists `x`. -/
def Event.blocks (b x : String) : Event → Bool
  | .stored k (.setUser uuid dict) =>
    uuid = b && k.op = .block && k.user.username = x && x ∈ (dict.strings "blocked").getD []
  | _ => false

instance (log : List Event) (b x : String) : Decidable (BlockStored log b x) := by
  refine decidable_of_iff (log.any (Event.blocks b x) = true) ?_
  rw [List.any_eq_true]
  constructor
  · rintro ⟨e, he, hb⟩
    cases e with
    | stored k w =>
      cases w with
      | setUser uuid dict =>
        simp only [Event.blocks, Bool.and_eq_true, decide_eq_true_eq] at hb
        obtain ⟨⟨⟨rfl, hop⟩, hx⟩, hd⟩ := hb
        exact ⟨k, dict, he, hop, hx, hd⟩
      | _ => cases hb
    | _ => cases hb
  · rintro ⟨k, dict, hmem, hop, hx, hd⟩
    refine ⟨_, hmem, ?_⟩
    simp only [Event.blocks, Bool.and_eq_true, decide_eq_true_eq]
    exact ⟨⟨⟨trivial, hop⟩, hx⟩, hd⟩

/-- The call runs `unfriendUser`, in a `blockUser` or by itself, on two users who list each
other. -/
structure Call.Unfriends (k : Call) : Prop where
  op : k.op = .unfriend ∨ k.op = .block
  uuid : k.currentUser.uuid ≠ k.user.uuid
  listed : k.user.username ∈ k.currentUser.friends
  listed' : k.currentUser.username ∈ k.user.friends

/-- The call has stored a document of the user. -/
def Saved (log : List Event) (k : Call) (uuid : String) : Prop :=
  ∃ dict, .stored k (.setUser uuid dict) ∈ log

/-- The `unfriendUser` of the call has stored both documents. -/
def UnfriendStored (log : List Event) (k : Call) : Prop :=
  k.Unfriends ∧ ∀ p ∈ k.copies, Saved log k p.1.uuid

/-- `k'` is an accept between the two users of `k`. -/
def Call.Rejoins (k' k : Call) : Prop :=
  k'.op = .accept ∧ (k'.currentUser.uuid = k.currentUser.uuid ∧ k'.user.uuid = k.user.uuid ∨
    k'.currentUser.uuid = k.user.uuid ∧ k'.user.uuid = k.currentUser.uuid)

/-- The unfriend of the call is stored, and no accept between the two was called since. -/
def Parted (log : List Event) (k : Call) : Prop :=
  ∃ later earlier, log = later ++ earlier ∧ UnfriendStored earlier k ∧
    ∀ k', .called k' ∈ later → ¬ k'.Rejoins k

/-- Every `blockUser` whose writes are all stored counts as a stored block, and every
`unfriendUser` of two friends likewise. -/
structure WritesCount (log : List Event) : Prop where
  blocked : ∀ k, k.op = .block → (∀ w ∈ k.writes, .stored k w ∈ log) →
    BlockStored log k.currentUser.uuid k.user.username
  unfriended : ∀ k, k.Unfriends → (∀ w ∈ k.writes, .stored k w ∈ log) → UnfriendStored log k

/-- Whoever was blocked is listed as blocked, and two users who were parted do not list each
other as friends. -/
structure NotUndone (s : State) : Prop where
  blocked : ∀ b x, BlockStored s.log b x → x ∈ s.store.blocked b
  unfriended : ∀ k, Parted s.log k → ∀ p ∈ k.copies, p.2 ∉ s.store.friends p.1.uuid

/-! ### The condition -/

/-- The copy lists `x` as blocked, or the document `dict` that is made of it is a block's of `x`
and adds the name. -/
def KnowsBlock (k : Call) (p : User × String) (dict : Dict) (x : String) : Prop :=
  x ∈ p.1.blocked ∨ k.op = .block ∧ k.user.username = x ∧ Blocks dict x

/-- The copy does not list the name `x`, or the call removes it; and it is not the name that an
accept adds. -/
def KnowsParting (k : Call) (p : User × String) (x : String) : Prop :=
  (x ∉ p.1.friends ∨ (k.op = .unfriend ∨ k.op = .block) ∧ x = p.2 ∧
    p.1.friends.count p.2 = 1) ∧ (k.op = .accept → x ≠ p.2)

/-- The copy that the document `dict` was made of knows of every stored block and unfriend of
its user, except for what the call itself does. -/
structure UpToDate (log : List Event) (k : Call) (p : User × String) (dict : Dict) : Prop where
  blocked : ∀ x, BlockStored log p.1.uuid x → KnowsBlock k p dict x
  unfriended : ∀ k', Parted log k' → ∀ p' ∈ k'.copies, p'.1.uuid = p.1.uuid →
    KnowsParting k p p'.2

/-- The names that an unfriend removes are listed once, and when its second document is stored
the first has not been overwritten with the name. -/
def Completes (s : State) (k : Call) (uuid : String) : Prop :=
  k.Unfriends → ∀ p ∈ k.copies,
    (p.1.uuid = uuid → p.1.friends.count p.2 = 1) ∧
    (p.1.uuid ≠ uuid → Saved s.log k p.1.uuid → p.2 ∉ s.store.friends p.1.uuid)

/-- The condition on a step that stores a user document. -/
def StoresUpToDate (s : State) (a : Action) : Prop :=
  ∀ i k uuid dict, a = .advance i false → s.tasks[i]? = some (.writing k (.setUser uuid dict)) →
    (∀ p ∈ k.copies, p.1.uuid = uuid → UpToDate s.log k p dict) ∧ Completes s k uuid

omit [UIKit] in
/-- An unfriend removes a name that is listed once. -/
theorem not_mem_editFriends {op : Operation} {friends : List String} {n : String}
    (hop : op = .unfriend ∨ op = .block) (h : friends.count n = 1) :
    n ∉ editFriends op friends n := by
  have herase : n ∉ friends.erase n := by
    rw [← List.count_eq_zero, List.count_erase_self, h]
  rcases hop with hop | hop <;> rw [hop] <;> exact herase

/-! ### The log after a step -/

section Log

variable {log : List Event} {e : Event} {k : Call} {b x : String}

theorem blockStored_cons (h : BlockStored (e :: log) b x) : BlockStored log b x ∨
    ∃ k dict, e = .stored k (.setUser b dict) ∧ Blocks dict x := by
  obtain ⟨k, dict, hmem, hop, hx, hd⟩ := h
  rcases List.mem_cons.mp hmem with rfl | hmem
  · exact Or.inr ⟨k, dict, rfl, hd⟩
  · exact Or.inl ⟨k, dict, hmem, hop, hx, hd⟩

/-- Two users are parted from now on when the second document of an unfriend is stored. -/
theorem parted_cons (h : Parted (e :: log) k) : Parted log k ∨
    UnfriendStored (e :: log) k ∧ ∃ p ∈ k.copies, ∃ dict, e = .stored k (.setUser p.1.uuid dict) := by
  obtain ⟨later, earlier, hlog, hun, hno⟩ := h
  cases later with
  | cons e' later =>
    obtain ⟨rfl, rfl⟩ := List.cons.inj hlog
    exact Or.inl ⟨later, earlier, rfl, hun, fun k' hk' => hno k' (List.mem_cons_of_mem _ hk')⟩
  | nil =>
    obtain rfl : e :: log = earlier := hlog
    by_cases hnew : ∃ p ∈ k.copies, ∃ dict, e = .stored k (.setUser p.1.uuid dict)
    · exact Or.inr ⟨hun, hnew⟩
    · refine Or.inl ⟨[], log, rfl, ⟨hun.1, fun p hp => ?_⟩, by simp⟩
      obtain ⟨dict, hmem⟩ := hun.2 p hp
      rcases List.mem_cons.mp hmem with he | hmem
      · exact absurd ⟨p, hp, dict, he.symm⟩ hnew
      · exact ⟨dict, hmem⟩

/-- All writes of a `blockUser` being stored, the block is stored. -/
theorem blockStored_of_writes (hop : k.op = .block) (h : ∀ w ∈ k.writes, .stored k w ∈ log) :
    BlockStored log k.currentUser.uuid k.user.username := by
  refine ⟨k, (blockUser k.currentUser k.user).currentUser.toFireObj, h _ ?_, hop, rfl, ?_⟩
  · rw [Call.writes, if_neg (by simp [hop]), hop]
    simp only [perform, blockUser_eq, saveData_eq_saveUser]
    exact List.mem_append_right _ (mem_saveUser.mpr
      ⟨(unfriendUser_rest k.currentUser k.user).1.symm, rfl⟩)
  · rw [Blocks, User.toFireObj_blocked, blockUser_eq]
    exact List.mem_append_right _ (List.mem_singleton_self _)

/-- All writes of an unfriend of two friends being stored, the unfriend is stored. -/
theorem unfriendStored_of_writes (hk : k.Unfriends) (h : ∀ w ∈ k.writes, .stored k w ∈ log) :
    UnfriendStored log k := by
  have hwrites : ∀ w ∈ (unfriendUser k.currentUser k.user).writes, w ∈ k.writes := by
    intro w hw
    rcases hk.op with hop | hop
    · rwa [Call.writes, if_neg (by simp [hop]), hop]
    · rw [Call.writes, if_neg (by simp [hop]), hop]
      simp only [perform, blockUser_eq]
      exact List.mem_append_left _ hw
  rw [unfriendUser_mutual hk.listed hk.listed'] at hwrites
  refine ⟨hk, fun p hp => ?_⟩
  simp only [Call.copies, List.mem_cons, List.not_mem_nil, or_false] at hp
  obtain rfl | rfl := hp
  · exact ⟨_, h _ (hwrites _ (List.mem_append_right _ (mem_saveUser.mpr ⟨rfl, rfl⟩)))⟩
  · exact ⟨_, h _ (hwrites _ (List.mem_append_left _ (mem_saveUser.mpr ⟨rfl, rfl⟩)))⟩

end Log

/-! ### Steps -/

variable {s s' : State}

theorem NotUndone.quiet (h : NotUndone s) (hlog : s'.log = s.log)
    (hstore : s'.store.users = s.store.users) : NotUndone s' where
  blocked b x hb := by
    rw [Store.blocked_congr hstore]
    exact h.blocked b x (hlog ▸ hb)
  unfriended k hk := by
    rw [Store.friends_congr hstore]
    exact h.unfriended k (hlog ▸ hk)

theorem NotUndone.event (h : NotUndone s) {e : Event}
    (he : ∀ k uuid dict, e ≠ .stored k (.setUser uuid dict)) (hlog : s'.log = e :: s.log)
    (hstore : s'.store.users = s.store.users) : NotUndone s' where
  blocked b x hb := by
    rw [Store.blocked_congr hstore]
    rw [hlog] at hb
    obtain hb | ⟨k, dict, hk, -⟩ := blockStored_cons hb
    · exact h.blocked b x hb
    · exact absurd hk (he _ _ _)
  unfriended k hk := by
    rw [Store.friends_congr hstore]
    rw [hlog] at hk
    obtain hk | ⟨-, p, -, dict, hp⟩ := parted_cons hk
    · exact h.unfriended k hk
    · exact absurd hp (he _ _ _)

/-- A document that is stored from an up-to-date copy keeps what was blocked. -/
theorem Edited.blocked_kept {k : Call} {p : User × String} {u : User} {x : String} {log : List Event}
    (he : Edited k.op p.1 p.2 u) (h : UpToDate log k p u.toFireObj)
    (hb : BlockStored log p.1.uuid x) : x ∈ u.blocked := by
  obtain hx | ⟨hop, hx, hd⟩ := h.blocked x hb
  · obtain he | ⟨-, he⟩ := he.blocked
    · rw [he]
      exact hx
    · rw [he]
      exact List.mem_append_left _ hx
  · rwa [Blocks, User.toFireObj_blocked] at hd

/-- A document that is stored from an up-to-date copy does not bring a removed name back. -/
theorem Edited.parted_kept {k k' : Call} {p p' : User × String} {u : User} {log : List Event}
    (he : Edited k.op p.1 p.2 u) (h : UpToDate log k p u.toFireObj) (hk : Parted log k')
    (hp : p' ∈ k'.copies) (huuid : p'.1.uuid = p.1.uuid) : p'.2 ∉ u.friends := by
  obtain ⟨hlist, hadd⟩ := h.unfriended k' hk p' hp huuid
  rw [he.friends]
  obtain hlist | ⟨hop, hn, hcount⟩ := hlist
  · cases hop : k.op with
    | accept =>
      intro hmem
      rcases List.mem_append.mp hmem with hmem | hmem
      · exact hlist hmem
      · exact hadd hop (List.mem_singleton.mp hmem)
    | unfriend => exact fun hmem => hlist (List.mem_of_mem_erase hmem)
    | block => exact fun hmem => hlist (List.mem_of_mem_erase hmem)
    | send => exact hlist
    | ignore => exact hlist
  · rw [hn]
    exact not_mem_editFriends hop hcount

/-- The two copies of an unfriend are of different users. -/
theorem Call.Unfriends.copies_inj {k : Call} (h : k.Unfriends) {p p' : User × String}
    (hp : p ∈ k.copies) (hp' : p' ∈ k.copies) (huuid : p.1.uuid = p'.1.uuid) : p = p' := by
  simp only [Call.copies, List.mem_cons, List.not_mem_nil, or_false] at hp hp'
  obtain rfl | rfl := hp <;> obtain rfl | rfl := hp'
  · rfl
  · exact absurd huuid h.uuid
  · exact absurd huuid.symm h.uuid
  · rfl

theorem NotUndone.stored (h : NotUndone s) {k : Call} {uuid : String} {dict : Dict}
    (hsaves : k.Saves uuid dict)
    (hup : ∀ p ∈ k.copies, p.1.uuid = uuid → UpToDate s.log k p dict)
    (hcomp : Completes s k uuid) :
    NotUndone ((s.write (.setUser uuid dict)).record (.stored k (.setUser uuid dict))) := by
  obtain ⟨u, p, hp, rfl, rfl, he⟩ := hsaves
  have hup' := hup p hp he.uuid.symm
  refine ⟨fun b x hb => ?_, fun k' hk' p' hp' => ?_⟩
  · simp only [State.record, State.write, Store.apply_setUser_blocked]
    obtain hb | ⟨k', dict, hnew, hd⟩ := blockStored_cons hb
    · split_ifs with hbu
      · exact he.blocked_kept hup' (by rw [← he.uuid, ← hbu]; exact hb)
      · exact h.blocked b x hb
    · obtain ⟨-, hw⟩ := Event.stored.inj hnew
      obtain ⟨rfl, rfl⟩ := Write.setUser.inj hw
      rw [if_pos rfl]
      rwa [Blocks, User.toFireObj_blocked] at hd
  · simp only [State.record, State.write, Store.apply_setUser_friends]
    obtain hk' | ⟨hun, p₀, -, dict, hnew⟩ := parted_cons hk'
    · split_ifs with hpu
      · exact he.parted_kept hup' hk' hp' (hpu.trans he.uuid)
      · exact h.unfriended k' hk' p' hp'
    · obtain ⟨rfl, -⟩ := Event.stored.inj hnew
      obtain ⟨honce, hrest⟩ := hcomp hun.1 p' hp'
      split_ifs with hpu
      · obtain rfl := hun.1.copies_inj hp hp' (by rw [← he.uuid, hpu])
        rw [he.friends]
        exact not_mem_editFriends hun.1.op (honce hpu)
      · refine hrest hpu ?_
        obtain ⟨dict', hmem⟩ := hun.2 p' hp'
        rcases List.mem_cons.mp hmem with heq | hmem
        · obtain ⟨-, hw⟩ := Event.stored.inj heq
          exact absurd (Write.setUser.inj hw).1 hpu
        · exact ⟨dict', hmem⟩

/-- A new document is stored where no block or unfriend was. -/
theorem NotUndone.enrolled (h : NotUndone s) (hs : Identified s) {flow : ℕ} {u : User}
    (ht : .enrolling flow u ∈ s.tasks) (i : ℕ) :
    NotUndone (((s.drop i).write (.setUser u.uuid u.toFireObj)).record (.completed flow u.uuid)) := by
  obtain ⟨-, hf, -, hd⟩ := hs.enrolling ht
  refine ⟨fun b x hb => ?_, fun k hk p hp => ?_⟩
  · simp only [State.record, State.write, Store.apply_setUser_blocked]
    obtain hb | ⟨k, dict, hk, -⟩ := blockStored_cons hb
    · have hx := h.blocked b x hb
      split_ifs with hbu
      · rw [hbu, Store.blocked, hd] at hx
        cases hx
      · exact hx
    · cases hk
  · simp only [State.record, State.write, Store.apply_setUser_friends]
    obtain hk | ⟨-, p₀, -, dict, hp₀⟩ := parted_cons hk
    · split_ifs with hpu
      · rw [hf]
        exact List.not_mem_nil
      · exact h.unfriended k hk p hp
    · cases hp₀

theorem NotUndone.next {a : Action} (h : NotUndone s) (hs : Identified s) (hi : AllIssued s)
    (hC : StoresUpToDate s a) (hn : Next s a s') : NotUndone s' := by
  have hcalled : ∀ (t : State) (k : Call), NotUndone t → NotUndone (t.call k) := by
    intro t k ht
    unfold State.call
    split_ifs
    · exact ht.event (e := .called k) (by simp) rfl rfl
    · exact ht.event (e := .called k) (by simp) rfl rfl
  cases hn with
  | stay hs => exact h
  | lookup ha c p q hp => exact h.quiet rfl rfl
  | tapped ha c m r hm hr => exact h.quiet rfl rfl
  | load ha c m hm => exact h.quiet rfl rfl
  | ended i err t ht he => exact h.quiet rfl rfl
  | answer i err flow c p q ht result hr => exact h.quiet rfl rfl
  | free i err flow c username result ht hr => exact h.quiet rfl rfl
  | loggedIn i err flow c u ht hc => exact h.quiet rfl rfl
  | checked i err flow c username result ht hr => exact h.quiet rfl rfl
  | called i err k ht hm => exact hcalled _ k (h.quiet rfl rfl)
  | loadAnswer i err flow c uuid ht answer ha => exact h.quiet rfl rfl
  | loaded i err flow c answer ht m hm => exact h.quiet rfl rfl
  | stored i k w ht =>
    cases w with
    | setUser uuid dict =>
      obtain ⟨hup, hcomp⟩ := hC i k uuid dict rfl ht
      have hw : .setUser uuid dict ∈ k.writes := hi _ (List.mem_of_getElem? ht)
      have hdrop : NotUndone (s.drop i) := h.quiet rfl rfl
      exact hdrop.stored (k.saves hw) hup hcomp
    | setRequest receiver title dict =>
      exact h.event (e := .stored k (.setRequest receiver title dict)) (by simp) rfl rfl
    | deleteRequest receiver title =>
      exact h.event (e := .stored k (.deleteRequest receiver title)) (by simp) rfl rfl
  | deleteFailed i k ht => exact h.quiet rfl rfl
  | deleteStored i k ht =>
    exact h.event (e := .stored k (acceptFriendRequest k.user k.currentUser))
      (by simp [acceptFriendRequest]) rfl rfl
  | completed i err err' k ht m hm => exact h.quiet rfl rfl
  | created i flow username uid ht hu =>
    exact h.event (e := .created flow uid) (by simp) rfl rfl
  | enrollFailed i flow u ht => exact h.event (e := .completed flow u.uuid) (by simp) rfl rfl
  | enrolled i flow u ht => exact h.enrolled hs (List.mem_of_getElem? ht) i

/-! ### Runs -/

theorem Start.notUndone (h : Start s) : NotUndone s where
  blocked b x hb := by
    obtain ⟨k, dict, hk, -⟩ := hb
    rw [h.log] at hk
    cases hk
  unfriended k hk := by
    obtain ⟨later, earlier, hlog, hun, -⟩ := hk
    rw [h.log] at hlog
    obtain ⟨dict, hmem⟩ := hun.2 (k.currentUser, k.user.username) List.mem_cons_self
    rw [(List.append_eq_nil_iff.mp hlog.symm).2] at hmem
    cases hmem

theorem writesCount (log : List Event) : WritesCount log :=
  ⟨fun _ hop h => blockStored_of_writes hop h, fun _ hk h => unfriendStored_of_writes hk h⟩

/-- While documents are stored from up-to-date copies, no block or unfriend whose writes are
stored is undone. -/
theorem notUndone_of_steps {s : State} (hs : Start s) (as : List Action)
    (h : Runs.Each step StoresUpToDate s as) :
    Runs.Always step (fun s => NotUndone s ∧ WritesCount s.log) s as := by
  refine (Runs.always_of_each (I := fun s => NotUndone s ∧ Identified s ∧ AllIssued s)
    (fun s a hI hC => ?_) ⟨hs.notUndone, hs.identified, hs.allIssued⟩ h).mono
      fun s hI => ⟨hI.1, writesCount s.log⟩
  obtain ⟨hno, hid, hi⟩ := hI
  have hn := next_step s a
  exact ⟨hno.next hid hi hC hn, hid.next hi hn, hi.next hn⟩

/-! ### A check of the condition -/

instance (dict : Dict) (x : String) : Decidable (Blocks dict x) :=
  inferInstanceAs (Decidable (x ∈ (dict.strings "blocked").getD []))

instance (k : Call) (p : User × String) (dict : Dict) (x : String) :
    Decidable (KnowsBlock k p dict x) :=
  inferInstanceAs (Decidable (_ ∨ _ ∧ _ ∧ _))

instance (k : Call) (p : User × String) (x : String) : Decidable (KnowsParting k p x) :=
  inferInstanceAs (Decidable ((_ ∨ _ ∧ _ ∧ _) ∧ (_ → _)))

instance (k : Call) : Decidable k.Unfriends :=
  decidable_of_iff ((k.op = .unfriend ∨ k.op = .block) ∧ k.currentUser.uuid ≠ k.user.uuid ∧
    k.user.username ∈ k.currentUser.friends ∧ k.currentUser.username ∈ k.user.friends)
    ⟨fun h => ⟨h.1, h.2.1, h.2.2.1, h.2.2.2⟩, fun h => ⟨h.op, h.uuid, h.listed, h.listed'⟩⟩

/-- The copy that the document `dict` was made of knows what the event stored. -/
def Event.KnownTo (k : Call) (p : User × String) (dict : Dict) : Event → Prop
  | .stored k' (.setUser uuid dict') =>
    (uuid = p.1.uuid → k'.op = .block → Blocks dict' k'.user.username →
      KnowsBlock k p dict k'.user.username) ∧
    (k'.Unfriends → ∀ p' ∈ k'.copies, p'.1.uuid = p.1.uuid → KnowsParting k p p'.2)
  | _ => True

/-- The event is a document of `uuid` that a call of `op` stored. -/
def Event.SavedBy (op : Operation) (uuid : String) : Event → Prop
  | .stored k (.setUser uuid' _) => k.op = op ∧ uuid' = uuid
  | _ => False

/-- `StoresUpToDate`, asked of all events of the log. -/
def Task.Checked (s : State) : Task → Prop
  | .writing k (.setUser uuid dict) =>
    (∀ p ∈ k.copies, p.1.uuid = uuid → ∀ e ∈ s.log, e.KnownTo k p dict) ∧
    (k.Unfriends → ∀ p ∈ k.copies, (p.1.uuid = uuid → p.1.friends.count p.2 = 1) ∧
      (p.1.uuid ≠ uuid → (∃ e ∈ s.log, e.SavedBy k.op p.1.uuid) →
        p.2 ∉ s.store.friends p.1.uuid))
  | _ => True

def Checked (s : State) : Action → Prop
  | .advance i false => ∀ t ∈ s.tasks[i]?, t.Checked s
  | _ => True

instance (k : Call) (p : User × String) (dict : Dict) : (e : Event) → Decidable (e.KnownTo k p dict)
  | .stored _ (.setUser _ _) =>
    inferInstanceAs (Decidable ((_ → _ → _ → _) ∧ (_ → ∀ p' ∈ _, _ → _)))
  | .stored _ (.setRequest _ _ _) | .stored _ (.deleteRequest _ _) | .called _ | .created _ _
  | .completed _ _ => isTrue trivial

instance (op : Operation) (uuid : String) : (e : Event) → Decidable (e.SavedBy op uuid)
  | .stored _ (.setUser _ _) => inferInstanceAs (Decidable (_ ∧ _))
  | .stored _ (.setRequest _ _ _) | .stored _ (.deleteRequest _ _) | .called _ | .created _ _
  | .completed _ _ => isFalse id

instance (s : State) : (t : Task) → Decidable (t.Checked s)
  | .writing _ (.setUser _ _) =>
    inferInstanceAs
      (Decidable ((∀ p ∈ _, _ → ∀ e ∈ s.log, _) ∧ (_ → ∀ p ∈ _, (_ → _) ∧ (_ → _ → _))))
  | .writing _ (.setRequest _ _ _) | .writing _ (.deleteRequest _ _) | .asked _ _ _ _
  | .answered _ _ _ _ | .loading _ _ _ | .loaded _ _ _ | .deleting _ | .deleted _ _
  | .creating _ _ | .enrolling _ _ => isTrue trivial

instance (s : State) : (a : Action) → Decidable (Checked s a)
  | .advance i false => inferInstanceAs (Decidable (∀ t ∈ s.tasks[i]?, t.Checked s))
  | .advance _ true | .signUp _ _ | .logIn _ _ | .addUserButtonPressed _ _ | .addFwen _ _
  | .ignore _ _ | .unfriend _ _ | .block _ _ | .load _ | .createUser _ _ => isTrue trivial

theorem upToDate_of_knownTo {log : List Event} {k : Call} {p : User × String} {dict : Dict}
    (h : ∀ e ∈ log, e.KnownTo k p dict) : UpToDate log k p dict where
  blocked x hx := by
    obtain ⟨k', dict', hmem, hop, rfl, hd⟩ := hx
    exact (h _ hmem).1 rfl hop hd
  unfriended k' hk' p' hp' huuid := by
    obtain ⟨later, earlier, rfl, hun, -⟩ := hk'
    obtain ⟨dict', hmem⟩ := hun.2 (k'.currentUser, k'.user.username) List.mem_cons_self
    exact (h _ (List.mem_append_right later hmem)).2 hun.1 p' hp' huuid

theorem Checked.storesUpToDate {a : Action} (h : Checked s a) : StoresUpToDate s a := by
  rintro i k uuid dict rfl ht
  replace h := h _ ht
  refine ⟨fun p hp hu => upToDate_of_knownTo (h.1 p hp hu), fun hun p hp =>
    ⟨(h.2 hun p hp).1, fun hne hsaved => (h.2 hun p hp).2 hne ?_⟩⟩
  obtain ⟨dict', hmem⟩ := hsaved
  exact ⟨_, hmem, rfl, rfl⟩

end

open PlainKit

/-- Bob accepted Ann's request, and Cat begins to accept Bob's: his document is fetched. Then
Bob blocks Ann, and his writes are stored. -/
def blockedMeanwhile : List Action := List.flatten [
  [.logIn 0 "a", .logIn 1 "b", .logIn 2 "c"], advances 0 6,
  [.addUserButtonPressed 0 "bob"], advances 0 5, [.load 1], advances 0 2,
  [.addFwen 1 0], advances 0 6,
  [.addUserButtonPressed 1 "cat"], advances 0 5, [.load 2], advances 0 2,
  [.addFwen 2 0], advances 0 1, [.block 1 "ann"], advances 1 5]

/-- Cat's accept stores the copy of Bob that it fetched before. -/
def staleAccept : List Action := blockedMeanwhile ++ advances 0 5

theorem staleAccept_undoes :
    Initial abc ∧
      (Runs.run step abc blockedMeanwhile).store.friends "b" = [] ∧
      (Runs.run step abc staleAccept).store.friends "b" = ["ann", "cat"] ∧
      ¬ Runs.Always step NotUndone abc staleAccept := by
  have hstored : BlockStored (Runs.run step abc staleAccept).log "b" "ann" := by decide +kernel
  have hblocked : "ann" ∉ (Runs.run step abc staleAccept).store.blocked "b" := by decide +kernel
  refine ⟨initial_signedUp _, by decide +kernel, by decide +kernel, fun h => ?_⟩
  have hend : NotUndone (Runs.run step abc staleAccept) := h.last
  exact hblocked (hend.blocked "b" "ann" hstored)

/-- Bob accepts Ann's request and unfriends her, and he blocks Cat. Then he accepts Cat's
request, and Ann logs in again and blocks Cat. -/
def storedAgain : List Action := List.flatten [
  [.logIn 0 "a", .logIn 1 "b", .logIn 2 "c"], advances 0 6,
  [.addUserButtonPressed 0 "bob"], advances 0 5, [.load 1], advances 0 2,
  [.addFwen 1 0], advances 0 6,
  [.unfriend 1 (.byUsername "ann")], advances 0 4, [.block 1 "cat"], advances 0 3,
  [.addUserButtonPressed 2 "bob"], advances 0 5, [.load 1], advances 0 2,
  [.addFwen 1 0], advances 0 6,
  [.logIn 3 "a"], advances 0 2, [.block 3 "cat"], advances 0 3]

/-- Both documents are stored after the block and the unfriend, and keep both. -/
theorem notUndone_storedAgain :
    (Runs.run step abc storedAgain).store.blocked "b" = ["cat"] ∧
      (Runs.run step abc storedAgain).store.friends "b" = ["cat"] ∧
      (Runs.run step abc storedAgain).store.blocked "a" = ["cat"] ∧
      (Runs.run step abc storedAgain).store.friends "a" = [] ∧
      Runs.Always step (fun s => NotUndone s ∧ WritesCount s.log) abc storedAgain := by
  refine ⟨by decide +kernel, by decide +kernel, by decide +kernel, by decide +kernel, ?_⟩
  have hchecked : Runs.Each step Checked abc storedAgain := by decide +kernel
  exact notUndone_of_steps (initial_signedUp _).start _
    (hchecked.mono fun _ _ h => h.storesUpToDate)

end JamSession.Interleaved
