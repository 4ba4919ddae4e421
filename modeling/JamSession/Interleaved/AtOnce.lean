import JamSession.Interleaved.System

/-! Flows run to completion. When the tasks of a flow are taken in turn and no step of the
backend fails, the flow amounts to one action of the sequential system, in which an operation
is a single step. So the sequential runs are the runs of this system in which every flow is
finished before the next one starts. -/

namespace JamSession.Interleaved

open UserController JamSession.Sequential

variable [UIKit]

/-- What the sequential system sees of a state. -/
def State.sequential (s : State) : Sequential.State := ⟨s.store, s.session⟩

/-- The sequential action that an action of a screen amounts to. -/
def Action.atOnce (s : State) : Action → Option Sequential.Action
  | .logIn c uuid => some (.login c uuid)
  | .load c => some (.load c)
  | .addUserButtonPressed c un => if un = "" then none else some (.call c .send (.byUsername un))
  | .addFwen c ir => Sequential.addFwen s.sequential c ir
  | .ignore c uuid => some (.call c .ignore (.byUuid uuid))
  | .unfriend c q => some (.call c .unfriend q)
  | .block c username => some (.call c .block (.byUsername username))
  | .signUp _ _ | .createUser _ _ | .advance _ _ => none

/-- The outstanding tasks, each taken when its turn comes, lead to `r` and leave nothing. -/
def EndsIn (s : State) (r : Sequential.State) : Prop :=
  ∃ n, (Runs.run step s (advances 0 n)).tasks = [] ∧
    (Runs.run step s (advances 0 n)).sequential = r

section EndsIn

variable {s : State} {r : Sequential.State}

theorem endsIn_idle (h : s.tasks = []) : EndsIn s s.sequential := ⟨0, h, rfl⟩

theorem endsIn_of_eq (h : s.tasks = []) (hr : s.sequential = r) : EndsIn s r :=
  hr ▸ endsIn_idle h

theorem EndsIn.turn {t : Task} {ts : List Task} (ht : s.tasks = t :: ts)
    (h : EndsIn (proceed { s with tasks := ts } false t) r) : EndsIn s r := by
  obtain ⟨n, htasks, hr⟩ := h
  have hstep : step s (.advance 0 false) = proceed { s with tasks := ts } false t := by
    simp [step, ht, State.drop]
  refine ⟨n + 1, ?_, ?_⟩
  · rw [advances, List.replicate_succ, Runs.run_cons, hstep]
    exact htasks
  · rw [advances, List.replicate_succ, Runs.run_cons, hstep]
    exact hr

theorem EndsIn.only {t : Task} (ht : s.tasks = [t])
    (h : EndsIn (proceed { s with tasks := [] } false t) r) : EndsIn s r :=
  EndsIn.turn ht h

/-- The writes of a call, stored in the order they were issued. -/
theorem endsIn_writing {k : Call} {ws : List Write} (h : s.tasks = ws.map (.writing k)) :
    EndsIn s ⟨s.store.applyAll ws, s.session⟩ := by
  induction ws generalizing s with
  | nil => exact endsIn_idle h
  | cons w ws ih => exact EndsIn.turn h (ih rfl)

theorem endsIn_issue (h : s.tasks = []) (k : Call) (out : Outcome) :
    EndsIn (s.issue k out) ⟨s.store.applyAll out.writes,
      Function.update s.session k.client (some out.currentUser)⟩ := by
  refine endsIn_writing (s := s.issue k out) (k := k) ?_
  simp [State.issue, h]

/-- A call, with the delete and the completion of an accept. -/
theorem endsIn_call (h : s.tasks = []) {k : Call} (hm : s.session k.client = some k.currentUser) :
    EndsIn (s.call k) ⟨s.store.applyAll (perform k.currentUser k.user k.op).writes,
      Function.update s.session k.client (some (perform k.currentUser k.user k.op).currentUser)⟩ := by
  obtain ⟨flow, c, op, m, o⟩ := k
  by_cases hop : op = .accept
  · subst hop
    have htasks : (s.call ⟨flow, c, .accept, m, o⟩).tasks = [.deleting ⟨flow, c, .accept, m, o⟩] := by
      simp [State.call, State.record, State.add, h]
    refine EndsIn.only htasks (EndsIn.only (t := .deleted _ false) rfl ?_)
    -- the delete is stored and acknowledged, and the session is as it was
    have hm' : (s.call ⟨flow, c, .accept, m, o⟩).session c = some m := hm
    simp only [proceed, State.add, State.record, State.write, Bool.false_eq_true, if_false, hm']
    exact endsIn_issue rfl _ (acceptDeleted o m false)
  · rw [State.call, if_neg hop]
    exact endsIn_issue (s := s.record (.called _)) h _ (perform m o op)

/-- An answered lookup, for an operation of the client. -/
theorem endsIn_answered {flow c : ℕ} {op : Operation} {q : Query} {result : Except ManErr User}
    (h : s.tasks = [.answered flow c (.call op) result]) (hr : q.answer s.store.users = result) :
    EndsIn s (Sequential.step s.sequential (.call c op q)) := by
  refine EndsIn.turn h ?_
  have hidle : EndsIn { s with tasks := [] } s.sequential := endsIn_idle rfl
  cases result with
  | error e => simpa [proceed, answered, Sequential.step, State.sequential, hr] using hidle
  | ok o =>
    cases hm : s.session c with
    | none => simpa [proceed, answered, Sequential.step, State.sequential, hr, hm] using hidle
    | some m =>
      have hcall := endsIn_call (s := { s with tasks := [] }) rfl (k := ⟨flow, c, op, m, o⟩) hm
      simpa [proceed, answered, Sequential.step, State.sequential, hr, hm] using hcall

/-- The server answers a lookup. -/
theorem EndsIn.asked {flow c : ℕ} {p : Purpose} {q : Query} (h : s.tasks = [.asked flow c p q])
    (hr : EndsIn { s with tasks := [.answered flow c p (q.answer s.store.users)] } r) :
    EndsIn s r :=
  EndsIn.turn h hr

theorem endsIn_asked {flow c : ℕ} {op : Operation} {q : Query}
    (h : s.tasks = [.asked flow c (.call op) q]) :
    EndsIn s (Sequential.step s.sequential (.call c op q)) :=
  EndsIn.asked h (endsIn_answered (s := { s with
    tasks := [.answered flow c (.call op) (q.answer s.store.users)] }) rfl rfl)

theorem endsIn_logIn {flow c : ℕ} {uuid : String} {result : Except ManErr User}
    (h : s.tasks = [.answered flow c .logIn result])
    (hr : (Query.byUuid uuid).answer s.store.users = result) :
    EndsIn s (Sequential.step s.sequential (.login c uuid)) := by
  refine EndsIn.turn h ?_
  have hidle : EndsIn { s with tasks := [] } s.sequential := endsIn_idle rfl
  cases result with
  | error e =>
    cases hm : s.session c <;>
      simpa [proceed, answered, Sequential.step, State.sequential, hr, hm] using hidle
  | ok u =>
    cases hm : s.session c with
    | some m => simpa [proceed, answered, Sequential.step, State.sequential, hr, hm] using hidle
    | none =>
      have hassign : EndsIn (({ s with tasks := [] } : State).assign c u)
          ⟨s.store, Function.update s.session c (some u)⟩ := endsIn_idle rfl
      simpa [proceed, answered, Sequential.step, State.sequential, hr, hm] using hassign

/-- The username is looked up twice, and the second answer is for the send. -/
theorem endsIn_checked {flow c : ℕ} {un : String} {result : Except ManErr User}
    (h : s.tasks = [.answered flow c (.check un) result])
    (hr : (Query.byUsername un).answer s.store.users = result) :
    EndsIn s (Sequential.step s.sequential (.call c .send (.byUsername un))) := by
  refine EndsIn.turn h ?_
  cases result with
  | error e =>
    have hidle : EndsIn { s with tasks := [] } s.sequential := endsIn_idle rfl
    simpa [proceed, answered, dbContainsUsername, Sequential.step, State.sequential, hr] using hidle
  | ok o =>
    exact endsIn_asked (s := { s with
      tasks := [.asked flow c (.call .send) (.byUsername un)] }) rfl

end EndsIn

/-- From an idle state, the flow of an action amounts to its sequential action. -/
theorem endsIn_atOnce {s : State} (hs : s.tasks = []) {a : Action} {b : Sequential.Action}
    (h : a.atOnce s = some b) : EndsIn (step s a) (Sequential.step s.sequential b) := by
  have htasks : ∀ t : ℕ → Task, (s.start t).tasks = [t s.next] := fun t => by
    rw [State.start, hs, List.nil_append]
  have hstart : ∀ c op q, EndsIn (s.start fun flow => .asked flow c (.call op) q)
      (Sequential.step s.sequential (.call c op q)) := fun c op q =>
    endsIn_asked (htasks fun flow => .asked flow c (.call op) q)
  cases a with
  | logIn c uuid =>
    cases h
    exact EndsIn.asked (htasks fun flow => .asked flow c .logIn (.byUuid uuid))
      (endsIn_logIn rfl rfl)
  | load c =>
    cases h
    cases hm : s.session c with
    | none => simpa [step, hm, Sequential.step, State.sequential] using endsIn_idle hs
    | some m =>
      have hstep : step s (.load c) = s.start fun flow => .loading flow c m.uuid := by
        simp [step, hm]
      rw [hstep]
      refine EndsIn.only (htasks _) (EndsIn.only (t := .loaded _ c _) rfl ?_)
      refine endsIn_of_eq ?_ ?_ <;>
        simp [proceed, State.start, State.add, State.assign, Sequential.step, State.sequential, hm]
  | addUserButtonPressed c un =>
    by_cases hun : un = ""
    · simp [Action.atOnce, hun] at h
    · simp only [Action.atOnce, if_neg hun, Option.some.injEq] at h
      subst h
      cases hm : s.session c with
      | none =>
        have hstep : step s (.addUserButtonPressed c un) = s := by simp [step, hm]
        rw [hstep]
        simpa [Sequential.step, State.sequential, hm] using endsIn_idle hs
      | some m =>
        have hstep : step s (.addUserButtonPressed c un) =
            s.start fun flow => .asked flow c (.check un) (.byUsername un) := by
          simp [step, hm, hun]
        rw [hstep]
        exact EndsIn.asked (htasks fun flow => .asked flow c (.check un) (.byUsername un))
          (endsIn_checked rfl rfl)
  | addFwen c ir =>
    obtain ⟨m, hm, hb⟩ := Option.bind_eq_some_iff.mp h
    obtain ⟨r, hr, rfl⟩ := Option.map_eq_some_iff.mp hb
    have hrow : ((s.session c).bind fun m => m.friendRequests[ir]?) = some r :=
      Option.bind_eq_some_iff.mpr ⟨m, hm, hr⟩
    have hstep : step s (.addFwen c ir) =
        s.start fun flow => .asked flow c (.call .accept) (.byUuid r.initialUser) := by
      simp [step, hrow]
    rw [hstep]
    exact hstart c .accept (.byUuid r.initialUser)
  | ignore c uuid =>
    cases h
    exact hstart c .ignore (.byUuid uuid)
  | unfriend c q =>
    cases h
    exact hstart c .unfriend q
  | block c username =>
    cases h
    exact hstart c .block (.byUsername username)
  | signUp c username => cases h
  | createUser i uid => cases h
  | advance i err => cases h

end JamSession.Interleaved
