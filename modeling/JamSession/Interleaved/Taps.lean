import Mathlib.Data.List.Induction
import JamSession.Interleaved.Blocks
import JamSession.Interleaved.Handled

/-! The taps behind the calls. Between a tap and the call of an operation there are one or two
lookups, answered whenever the server gets to them; still every call has a tap of its own on the
same client, that asked for this operation on the user who was found. The one button that does
not ask for what it says is the block button of an incoming request: it has the same handler as
unfriending, so nobody is ever blocked through it. -/

namespace JamSession.Interleaved

open UserController JamSession.Sequential

section

variable [UIKit]

/-! ### The friends screen -/

inductive Button
  | unfriend
  | block
  | ignore

/-- The handler of a button of a row, with any text as the `textLabel?.text` of the row's cell.
The friends have the buttons `unfriend` and `block`, the requests `ignore` and `block`. -/
def handler (c sec : ℕ) (str : String) : Button → Option Action
  | .unfriend => if sec = 0 then some (.unfriend c (.byUsername str)) else none
  | .block => if sec = 0 then some (.block c str) else some (.unfriend c (.byUuid str))
  | .ignore => if sec = 0 then none else some (.ignore c str)

inductive Tap
  | addUserButtonPressed (un : Option String)
  | didSelectRowAt (sec row : ℕ)
  | swiped (sec : ℕ) (str : Option String) (b : Button)

/-- What a tap on client `c` starts. -/
def Tap.starts (c : ℕ) : Tap → Option Action
  | .addUserButtonPressed un => un.map (.addUserButtonPressed c)
  | .didSelectRowAt sec row => if sec = 1 then some (.addFwen c row) else none
  | .swiped sec str b => str.bind fun str => handler c sec str b

/-- The action is not the block of a friend. -/
def BlocksNoFriend (a : Action) : Prop :=
  ∀ c (tap : Tap), tap.starts c = some a → ∀ str, tap ≠ .swiped 0 str .block

/-! ### What a call was asked for by -/

/-- The client, the operation and the lookup of the user that an action asks for. -/
def asks (s : State) : Action → Option (ℕ × Operation × Query)
  | .addUserButtonPressed c un =>
    if (s.session c).isSome ∧ un ≠ "" then some (c, .send, .byUsername un) else none
  | .addFwen c ir => ((s.session c).bind fun m => m.friendRequests[ir]?).map fun r =>
      (c, .accept, .byUuid r.initialUser)
  | .ignore c uuid => some (c, .ignore, .byUuid uuid)
  | .unfriend c q => some (c, .unfriend, q)
  | .block c username => some (c, .block, .byUsername username)
  | _ => none

/-- The user is one that the lookup asks for. -/
def FoundBy (u : User) : Query → Prop
  | .byUsername username => u.username = username
  | .byUuid uuid => u.uuid = uuid

/-- An action of the run started the flow and asked for this. -/
def Asked (s : State) (as : List Action) (flow : ℕ) (ask : ℕ × Operation × Query) : Prop :=
  ∃ before a after, as = before ++ a :: after ∧ (Runs.run step s before).next = flow ∧
    asks (Runs.run step s before) a = some ask

/-- The flow that a call belongs to. -/
def Event.callFlow : Event → Option ℕ
  | .called k => some k.flow
  | _ => none

/-- Every call was asked for by the action that started its flow, and no flow calls twice. -/
structure CallsTapped (s : State) (as : List Action) : Prop where
  asked : ∀ k, .called k ∈ (Runs.run step s as).log →
    ∃ q, Asked s as k.flow (k.client, k.op, q) ∧ FoundBy k.user q
  once : ((Runs.run step s as).log.filterMap Event.callFlow).Nodup

/-- What is known of a lookup that is under way. -/
def TaskAsked (s : State) (as : List Action) : Task → Prop
  | .asked flow c (.call op) q => Asked s as flow (c, op, q)
  | .answered flow c (.call op) (.ok u) => ∃ q, Asked s as flow (c, op, q) ∧ FoundBy u q
  | .asked flow c (.check un) _ | .answered flow c (.check un) _ =>
    Asked s as flow (c, .send, .byUsername un)
  | _ => True

theorem foundBy_of_answer {users : OrderedMap String Dict} {q : Query} {u : User}
    (h : q.answer users = .ok u) : FoundBy u q := by
  cases q with
  | byUsername username =>
    have hgrab : grabUserFromUsername users false username = .ok u := h
    exact grabUserFromUsername_username hgrab
  | byUuid uuid =>
    have hgrab : grabUserFromUuid users false uuid = .ok u := h
    exact grabUserFromUuid_uuid hgrab

section Asked

variable {s : State} {as : List Action} {flow : ℕ} {ask : ℕ × Operation × Query}

theorem Asked.append (h : Asked s as flow ask) (bs : List Action) : Asked s (as ++ bs) flow ask := by
  obtain ⟨before, a, after, rfl, hflow, hask⟩ := h
  exact ⟨before, a, after ++ bs, by simp, hflow, hask⟩

theorem TaskAsked.append {t : Task} (h : TaskAsked s as t) (bs : List Action) :
    TaskAsked s (as ++ bs) t := by
  match t, h with
  | .asked flow c (.call op) q, h => exact Asked.append h bs
  | .answered flow c (.call op) (.ok u), ⟨q, h, hu⟩ => exact ⟨q, h.append bs, hu⟩
  | .asked flow c (.check un) q, h => exact Asked.append h bs
  | .answered flow c (.check un) result, h => exact Asked.append h bs
  | .asked flow c (.signUp un) q, _ => trivial
  | .asked flow c .logIn q, _ => trivial
  | .answered flow c (.signUp un) result, _ => trivial
  | .answered flow c .logIn result, _ => trivial
  | .answered flow c (.call op) (.error e), _ => trivial
  | .loading flow c uuid, _ => trivial
  | .loaded flow c answer, _ => trivial
  | .writing k w, _ => trivial
  | .deleting k, _ => trivial
  | .deleted k err, _ => trivial
  | .creating flow username, _ => trivial
  | .enrolling flow u, _ => trivial

end Asked

/-! ### Lookups -/

section Steps

variable {s : State} {a : Action} {flow c : ℕ} {p : Purpose} {q : Query}

/-- The lookup that an action starts. -/
theorem asked_start {c' : ℕ} {p' : Purpose} {q' : Query}
    (h : .asked flow c p q ∈ (s.start fun flow => .asked flow c' p' q').tasks)
    (hcall : ∀ op, p' = .call op → asks s a = some (c', op, q'))
    (hcheck : ∀ un, p' = .check un → asks s a = some (c', .send, .byUsername un)) :
    .asked flow c p q ∈ s.tasks ∨ flow = s.next ∧
      (∀ op, p = .call op → asks s a = some (c, op, q)) ∧
      (∀ un, p = .check un → asks s a = some (c, .send, .byUsername un)) := by
  rcases List.mem_append.mp h with h | h
  · exact Or.inl h
  · cases List.mem_singleton.mp h
    exact Or.inr ⟨rfl, hcall, hcheck⟩

/-- A callback starts no lookup but the one that follows on the check of a username. -/
theorem asked_advance {i : ℕ} {err : Bool} (h : .asked flow c p q ∈ (step s (.advance i err)).tasks) :
    .asked flow c p q ∈ s.tasks ∨ ∃ un result, p = .call .send ∧ q = .byUsername un ∧
      .answered flow c (.check un) result ∈ s.tasks := by
  have hn := next_step s (.advance i err)
  generalize step s (.advance i err) = s' at h hn
  have hadd : ∀ {j : ℕ} {ts : List Task}, (∀ t ∈ ts, .asked flow c p q ≠ t) →
      .asked flow c p q ∈ (s.drop j).tasks ++ ts → .asked flow c p q ∈ s.tasks := by
    intro j ts hts hin
    rcases List.mem_append.mp hin with hin | hin
    · exact mem_of_mem_drop hin
    · exact absurd rfl (hts _ hin)
  have hone : ∀ {j : ℕ} {t : Task}, .asked flow c p q ∈ (s.drop j).tasks ++ [t] →
      .asked flow c p q ≠ t → .asked flow c p q ∈ s.tasks :=
    fun hin hne => hadd (List.forall_mem_singleton.mpr hne) hin
  cases hn with
  | stay hs => exact Or.inl h
  | lookup ha => exact absurd rfl (ha i err)
  | tapped ha => exact absurd rfl (ha i err)
  | load ha => exact absurd rfl (ha i err)
  | ended j err' t ht he => exact Or.inl (mem_of_mem_drop h)
  | answer j err' flow' c' p' q' ht result hr => exact Or.inl (hone h nofun)
  | free j err' flow' c' username result ht hr => exact Or.inl (hone h nofun)
  | loggedIn j err' flow' c' u ht hc => exact Or.inl (mem_of_mem_drop h)
  | checked j err' flow' c' username result ht hr =>
    rcases List.mem_append.mp h with h | h
    · exact Or.inl (mem_of_mem_drop h)
    · cases List.mem_singleton.mp h
      exact Or.inr ⟨username, result, rfl, rfl, List.mem_of_getElem? ht⟩
  | called j err' k ht hm =>
    left
    unfold State.call at h
    split_ifs at h
    · exact hone h nofun
    · refine hadd (fun t ht' => ?_) h
      obtain ⟨w, -, rfl⟩ := List.mem_map.mp ht'
      exact nofun
  | loadAnswer j err' flow' c' uuid ht answer ha => exact Or.inl (hone h nofun)
  | loaded j err' flow' c' answer ht m hm => exact Or.inl (mem_of_mem_drop h)
  | stored j k w ht => exact Or.inl (mem_of_mem_drop h)
  | deleteFailed j k ht => exact Or.inl (hone h nofun)
  | deleteStored j k ht => exact Or.inl (hone h nofun)
  | completed j err' err'' k ht m hm =>
    left
    refine hadd (fun t ht' => ?_) h
    obtain ⟨w, -, rfl⟩ := List.mem_map.mp ht'
    exact nofun
  | enrollFailed j flow' u ht => exact Or.inl (mem_of_mem_drop h)
  | enrolled j flow' u ht => exact Or.inl (mem_of_mem_drop h)

/-- A new lookup was asked for by the action, or follows on the check of a username. -/
theorem asked_step (h : .asked flow c p q ∈ (step s a).tasks) : .asked flow c p q ∈ s.tasks ∨
    (flow = s.next ∧ (∀ op, p = .call op → asks s a = some (c, op, q)) ∧
      (∀ un, p = .check un → asks s a = some (c, .send, .byUsername un))) ∨
    ∃ un result, p = .call .send ∧ q = .byUsername un ∧
      .answered flow c (.check un) result ∈ s.tasks := by
  cases a with
  | signUp c' username =>
    refine (asked_start h ?_ ?_).imp_right Or.inl
    · rintro op ⟨⟩
    · rintro un ⟨⟩
  | logIn c' uuid =>
    refine (asked_start h ?_ ?_).imp_right Or.inl
    · rintro op ⟨⟩
    · rintro un ⟨⟩
  | addUserButtonPressed c' un =>
    simp only [step] at h
    split_ifs at h with hcond
    · refine (asked_start h ?_ ?_).imp_right Or.inl
      · rintro op ⟨⟩
      · rintro un' ⟨⟩
        exact if_pos hcond
    · exact Or.inl h
  | addFwen c' ir =>
    simp only [step] at h
    split at h
    · next r hr =>
      refine (asked_start h ?_ ?_).imp_right Or.inl
      · rintro op ⟨⟩
        simp only [asks, hr, Option.map_some]
      · rintro un ⟨⟩
    · exact Or.inl h
  | ignore c' uuid =>
    refine (asked_start h ?_ ?_).imp_right Or.inl
    · rintro op ⟨⟩
      rfl
    · rintro un ⟨⟩
  | unfriend c' q' =>
    refine (asked_start h ?_ ?_).imp_right Or.inl
    · rintro op ⟨⟩
      rfl
    · rintro un ⟨⟩
  | block c' un =>
    refine (asked_start h ?_ ?_).imp_right Or.inl
    · rintro op ⟨⟩
      rfl
    · rintro un ⟨⟩
  | load c' =>
    left
    simp only [step] at h
    split at h
    · rcases List.mem_append.mp h with h | h
      · exact h
      · cases List.mem_singleton.mp h
    · exact h
  | createUser i uid =>
    left
    simp only [step] at h
    split at h
    · rcases List.mem_append.mp h with h | h
      · exact mem_of_mem_drop h
      · cases List.mem_singleton.mp h
    · exact h
  | advance i err => exact (asked_advance h).imp_right Or.inr

/-- What is known of the lookups that are under way stays known. -/
theorem taskAsked_step {s₀ : State} {as : List Action}
    (h : ∀ t ∈ (Runs.run step s₀ as).tasks, TaskAsked s₀ as t) (a : Action) :
    ∀ t ∈ (step (Runs.run step s₀ as) a).tasks, TaskAsked s₀ (as ++ [a]) t := by
  have hasked : ∀ {ask}, asks (Runs.run step s₀ as) a = some ask →
      Asked s₀ (as ++ [a]) (Runs.run step s₀ as).next ask := fun ha => ⟨as, a, [], rfl, rfl, ha⟩
  intro t ht
  match t with
  | .asked flow c p q =>
    rcases asked_step ht with hold | ⟨rfl, hcall, hcheck⟩ | ⟨un, result, rfl, rfl, hun⟩
    · exact (h _ hold).append [a]
    · cases p with
      | call op => exact hasked (hcall op rfl)
      | check un => exact hasked (hcheck un rfl)
      | signUp un => trivial
      | logIn => trivial
    · exact (h _ hun).append [a]
  | .answered flow c p result =>
    rcases mem_tasks_next (next_step _ a) ht with hold | hadd
    · exact (h _ hold).append [a]
    · cases hadd with
      | answered i err flow c p q hi result hr =>
        have hq := (h _ (List.mem_of_getElem? hi)).append [.advance i err]
        match p, result with
        | .call op, .ok u => exact ⟨q, hq, foundBy_of_answer (hr u rfl)⟩
        | .call op, .error e => trivial
        | .check un, _ => exact hq
        | .signUp un, _ => trivial
        | .logIn, _ => trivial
  | .loading flow c uuid | .loaded flow c answer | .writing k w | .deleting k | .deleted k err
  | .creating flow username | .enrolling flow u => trivial

end Steps

/-! ### Flows -/

/-- The flow of a lookup that is under way. -/
def Task.lookup : Task → Option ℕ
  | .asked flow _ _ _ | .answered flow _ _ _ => some flow
  | _ => none

/-- The flows that can still call and those that have called. -/
def flows (s : State) : List ℕ :=
  s.tasks.filterMap Task.lookup ++ s.log.filterMap Event.callFlow

/-- No flow does both, or one of the two twice, and the next flow is a new one. -/
structure CalledOnce (s : State) : Prop where
  nodup : (flows s).Nodup
  below : ∀ flow ∈ flows s, flow < s.next

section Flows

variable {s s' : State}

theorem CalledOnce.of_subperm (h : CalledOnce s) (hsub : (flows s').Subperm (flows s))
    (hnext : s'.next = s.next) : CalledOnce s' := by
  obtain ⟨l, hperm, hl⟩ := hsub
  refine ⟨hperm.nodup_iff.mp (h.nodup.sublist hl), fun flow hflow => ?_⟩
  rw [hnext]
  exact h.below flow (hl.subset (hperm.mem_iff.mpr hflow))

/-- A task gives way to others and is logged, and hands its flow on once at most. -/
theorem CalledOnce.goes_on (h : CalledOnce s) {i : ℕ} {t : Task} (ht : s.tasks[i]? = some t)
    (ts : List Task) (es : List Event) (htasks : s'.tasks = (s.drop i).tasks ++ ts)
    (hlog : s'.log = es ++ s.log) (hnext : s'.next = s.next)
    (hone : (ts.filterMap Task.lookup ++ es.filterMap Event.callFlow).Sublist t.lookup.toList) :
    CalledOnce s' := by
  refine h.of_subperm ?_ hnext
  have hsame : (s.drop i).log = s.log := rfl
  have hold : (flows s).Perm (t.lookup.toList ++ flows (s.drop i)) := by
    have htake := ((perm_drop ht).filterMap Task.lookup).append_right
      (s.log.filterMap Event.callFlow)
    rw [List.filterMap_cons] at htake
    unfold flows
    cases hlookup : t.lookup <;> simpa [hlookup, hsame] using htake
  have hnew : (flows s').Perm ((ts.filterMap Task.lookup ++ es.filterMap Event.callFlow) ++
      flows (s.drop i)) := by
    rw [List.perm_iff_count]
    intro flow
    simp only [flows, htasks, hlog, hsame, List.filterMap_append, List.count_append]
    omega
  exact hnew.subperm.trans ((hone.append_right _).subperm.trans hold.symm.subperm)

theorem filterMap_lookup_writing (k : Call) (ws : List Write) :
    (ws.map (Task.writing k)).filterMap Task.lookup = [] := by
  rw [List.filterMap_map]
  exact List.filterMap_eq_nil_iff.mpr fun _ _ => rfl

theorem CalledOnce.start (h : CalledOnce s) (t : ℕ → Task)
    (ht : ∀ flow, (t flow).lookup = some flow ∨ (t flow).lookup = none) :
    CalledOnce (s.start t) := by
  have hflows : (flows (s.start t)).Perm ((t s.next).lookup.toList ++ flows s) := by
    rw [List.perm_iff_count]
    intro flow
    simp only [flows, State.start, List.filterMap_append, List.count_append]
    cases hlookup : (t s.next).lookup with
    | none => simp [hlookup]
    | some flow' =>
      simp [hlookup]
      omega
  have hnext : (s.start t).next = s.next + 1 := rfl
  refine ⟨hflows.nodup_iff.mpr ?_, fun flow hflow => ?_⟩
  · rcases ht s.next with hlookup | hlookup
    · rw [hlookup]
      exact List.nodup_cons.mpr ⟨fun hin => lt_irrefl _ (h.below _ hin), h.nodup⟩
    · rw [hlookup]
      exact h.nodup
  · rw [hnext]
    rcases List.mem_append.mp (hflows.mem_iff.mp hflow) with hin | hin
    · rcases ht s.next with hlookup | hlookup
      · rw [hlookup] at hin
        rw [List.mem_singleton.mp hin]
        exact Nat.lt_succ_self _
      · rw [hlookup] at hin
        cases hin
    · exact (h.below flow hin).trans (Nat.lt_succ_self _)

theorem CalledOnce.next (h : CalledOnce s) {a : Action} (hn : Next s a s') : CalledOnce s' := by
  have hnil : ∀ {l : List ℕ}, List.Sublist [] l := List.nil_sublist _
  cases hn with
  | stay hs => exact h
  | lookup ha c p q hp => exact h.start _ fun _ => Or.inl rfl
  | tapped ha c m r hm hr => exact h.start _ fun _ => Or.inl rfl
  | load ha c m hm => exact h.start _ fun _ => Or.inr rfl
  | ended i err t ht he => exact h.goes_on ht [] [] (List.append_nil _).symm rfl rfl hnil
  | answer i err flow c p q ht result hr =>
    exact h.goes_on ht [.answered flow c p result] [] rfl rfl rfl (List.Sublist.refl _)
  | free i err flow c username result ht hr =>
    exact h.goes_on ht [.creating flow username] [] rfl rfl rfl hnil
  | loggedIn i err flow c u ht hc =>
    exact h.goes_on ht [] [] (List.append_nil _).symm rfl rfl hnil
  | checked i err flow c username result ht hr =>
    exact h.goes_on ht [.asked flow c _ _] [] rfl rfl rfl (List.Sublist.refl _)
  | called i err k ht hm =>
    unfold State.call
    split_ifs
    · exact h.goes_on ht [.deleting k] [.called k] rfl rfl rfl (List.Sublist.refl _)
    · refine h.goes_on ht _ [.called k] rfl rfl rfl ?_
      rw [filterMap_lookup_writing]
      exact List.Sublist.refl _
  | loadAnswer i err flow c uuid ht answer ha =>
    exact h.goes_on ht [.loaded flow c answer] [] rfl rfl rfl hnil
  | loaded i err flow c answer ht m hm =>
    exact h.goes_on ht [] [] (List.append_nil _).symm rfl rfl hnil
  | stored i k w ht =>
    exact h.goes_on ht [] [.stored k w] (List.append_nil _).symm rfl rfl hnil
  | deleteFailed i k ht => exact h.goes_on ht [.deleted k true] [] rfl rfl rfl hnil
  | deleteStored i k ht =>
    exact h.goes_on ht [.deleted k false] [.stored k _] rfl rfl rfl hnil
  | completed i err err' k ht m hm =>
    refine h.goes_on ht _ [] rfl rfl rfl ?_
    rw [filterMap_lookup_writing]
    exact hnil
  | created i flow username uid ht hu =>
    exact h.goes_on ht [.enrolling flow _] [.created flow uid] rfl rfl rfl hnil
  | enrollFailed i flow u ht =>
    exact h.goes_on ht [] [.completed flow u.uuid] (List.append_nil _).symm rfl rfl hnil
  | enrolled i flow u ht =>
    exact h.goes_on ht [] [.completed flow u.uuid] (List.append_nil _).symm rfl rfl hnil

end Flows

/-! ### Runs -/

/-- Whatever is called, or can still be called, was asked for. -/
theorem asked_run {s : State} (hs : Start s) (as : List Action) :
    (∀ t ∈ (Runs.run step s as).tasks, TaskAsked s as t) ∧
      ∀ k, .called k ∈ (Runs.run step s as).log →
        ∃ q, Asked s as k.flow (k.client, k.op, q) ∧ FoundBy k.user q := by
  induction as using List.reverseRecOn with
  | nil =>
    refine ⟨fun t ht => ?_, fun k hk => ?_⟩
    · rw [Runs.run_nil, hs.tasks] at ht
      cases ht
    · rw [Runs.run_nil, hs.log] at hk
      cases hk
  | append_singleton as a ih =>
    obtain ⟨htasks, hcalls⟩ := ih
    rw [Runs.run_append]
    refine ⟨taskAsked_step htasks a, fun k hk => ?_⟩
    rcases called_next (next_step _ a) hk with hold | ⟨i, err, -, hi, -⟩
    · obtain ⟨q, hq, hfound⟩ := hcalls k hold
      exact ⟨q, hq.append [a], hfound⟩
    · obtain ⟨q, hq, hfound⟩ := htasks _ (List.mem_of_getElem? hi)
      exact ⟨q, hq.append [a], hfound⟩

/-- In every run each call has a tap of its own that asked for it, on the same client, with this
operation and the user who was called about. -/
theorem callsTapped_run {s : State} (hs : Start s) (as : List Action) : CallsTapped s as := by
  have hempty : flows s = [] := by
    rw [flows, hs.tasks, hs.log]
    rfl
  have honce : CalledOnce (Runs.run step s as) :=
    Runs.invariant (I := CalledOnce) (fun _ a h => h.next (next_step _ a))
      ⟨by rw [hempty]; exact List.nodup_nil, by rw [hempty]; exact nofun⟩ as
  exact ⟨(asked_run hs as).2, honce.nodup.sublist (List.sublist_append_right _ _)⟩

/-! ### The block button of a request -/

omit [UIKit] in
/-- Only a block swipe on a friend starts a block. -/
theorem blocksNoFriend_iff {a : Action} : BlocksNoFriend a ↔ ∀ c username, a ≠ .block c username := by
  constructor
  · rintro h c username rfl
    exact h c (.swiped 0 (some username) .block) rfl (some username) rfl
  · rintro h c tap hstarts str rfl
    cases str with
    | none => cases hstarts
    | some username => exact h c username (Option.some.inj hstarts).symm

/-- Nobody is on a blocked list, stored or in memory. -/
def NobodyBlocked (s : State) : Prop :=
  (∀ b, s.store.blocked b = []) ∧ ∀ c m, s.session c = some m → m.blocked = []

/-- As long as the block button is used on incoming requests only, nobody gets blocked. -/
theorem requestBlocks_run {s : State} (hs : Start s) (hb : ∀ k, s.store.blocked k = [])
    {as : List Action} (has : ∀ a ∈ as, BlocksNoFriend a) :
    Runs.Always step NobodyBlocked s as := by
  rw [Runs.always_iff]
  intro bs hbs
  have hblocked : BlockedByOwner (Runs.run step s bs) :=
    (Runs.always_iff.mp (hs.blocker_run hb as) bs hbs).blockedByOwner
  have hno : ∀ b x, ¬ BlockedBy (Runs.run step s bs) b x := by
    rintro b x ⟨k, hk, hop, -⟩
    obtain ⟨q, ⟨before, a, after, rfl, -, hask⟩, -⟩ := (asked_run hs bs).2 k hk
    have hfriend := blocksNoFriend_iff.mp (has a (hbs.subset (by simp)))
    rw [hop] at hask
    cases a with
    | block c username => exact hfriend c username rfl
    | addUserButtonPressed c un =>
      simp only [asks] at hask
      split_ifs at hask
      cases hask
    | addFwen c ir =>
      obtain ⟨r, -, hr⟩ := Option.map_eq_some_iff.mp hask
      cases hr
    | _ => cases hask
  exact ⟨fun b => List.eq_nil_iff_forall_not_mem.mpr fun x hx => hno b x (hblocked.stored b x hx),
    fun c m hm => List.eq_nil_iff_forall_not_mem.mpr fun x hx =>
      hno m.uuid x (hblocked.session c m x hm hx)⟩

end

open PlainKit

/-- Ann sends Bob a request; Bob swipes it and presses `block`, and then accepts it. -/
def blocksRequest : List Action := List.flatten [
  [.logIn 0 "a", .logIn 1 "b"], advances 0 4, [.addUserButtonPressed 0 "bob"], advances 0 5,
  [.load 1], advances 0 2, [.unfriend 1 (.byUuid "a")], advances 0 2, [.addFwen 1 0],
  advances 0 7]

theorem callsTapped_run_blocksRequest :
    (Runs.run step abc blocksRequest).log.filterMap Event.callFlow = [5, 4, 2] ∧
      CallsTapped abc blocksRequest :=
  ⟨by decide +kernel, callsTapped_run (initial_signedUp _).start blocksRequest⟩

theorem requestBlocks_run_blocksRequest :
    (Tap.swiped 1 (some "a") .block).starts 1 = some (.unfriend 1 (.byUuid "a")) ∧
      (Runs.run step abc blocksRequest).store.friends "b" = ["ann"] ∧
      Runs.Always step NobodyBlocked abc blocksRequest := by
  refine ⟨rfl, by decide +kernel, requestBlocks_run (initial_signedUp _).start
    (signedUp_blocked _) fun a ha => blocksNoFriend_iff.mpr ?_⟩
  rintro c username rfl
  simp [blocksRequest, advances] at ha

end JamSession.Interleaved
