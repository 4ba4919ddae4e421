import Mathlib.Algebra.GroupWithZero.Nat
import Mathlib.Data.Prod.Lex
import JamSession.Interleaved.System
import JamSession.Firestore.PlainKit

/-! The flows come to an end. A callback starts the next lookup, delete or batch of writes of
its flow, and no flow goes back to an earlier stage, so whatever order the outstanding tasks
are taken in, and whichever steps of the backend fail, nothing is outstanding after finitely
many steps. How many there are has no bound in the tasks alone: a call issues one write for
each request that its user has in memory when it runs. -/

namespace JamSession.Interleaved

open UserController JamSession.Sequential

section

variable [UIKit]

/-- The action takes an outstanding task; only `createUser` has a second way to go on. -/
def Outstanding (s : State) : Action → Prop
  | .advance i _ => i < s.tasks.length
  | .createUser i uid =>
    (∃ flow username, s.tasks[i]? = some (.creating flow username)) ∧ s.accounts uid = none
  | _ => False

/-- The tasks that may still follow, one after the other, before the writes of the flow. -/
def Purpose.ahead : Purpose → ℕ
  | .logIn => 1
  | .signUp _ | .call _ => 3
  | .check _ => 5

def Task.ahead : Task → ℕ
  | .asked _ _ p _ => p.ahead + 1
  | .answered _ _ p _ => p.ahead
  | .loading _ _ _ | .deleting _ | .creating _ _ => 2
  | .loaded _ _ _ | .deleted _ _ | .enrolling _ _ => 1
  | .writing _ _ => 0

/-- The stages ahead of all tasks first, then the number of the tasks. -/
def State.ahead (s : State) : ℕ ×ₗ ℕ := toLex ((s.tasks.map Task.ahead).sum, s.tasks.length)

variable {s s' : State}

/-- A task gives way to tasks that have together fewer stages ahead, or to none. -/
theorem ahead_lt {i : ℕ} {t : Task} (ht : s.tasks[i]? = some t) {ts : List Task}
    (hts : s'.tasks = (s.drop i).tasks ++ ts)
    (hlt : ts = [] ∨ (ts.map Task.ahead).sum < t.ahead) : s'.ahead < s.ahead := by
  have hperm := perm_drop ht
  have hsum : (s.tasks.map Task.ahead).sum = t.ahead + ((s.drop i).tasks.map Task.ahead).sum :=
    (hperm.map Task.ahead).sum_nat
  have hlength : s.tasks.length = (s.drop i).tasks.length + 1 := hperm.length_eq
  have hsum' : (s'.tasks.map Task.ahead).sum =
      ((s.drop i).tasks.map Task.ahead).sum + (ts.map Task.ahead).sum := by
    rw [hts, List.map_append, List.sum_append]
  rw [State.ahead, State.ahead, Prod.Lex.toLex_lt_toLex]
  rcases hlt with rfl | hlt
  · have hlength' : s'.tasks.length = (s.drop i).tasks.length := by rw [hts, List.append_nil]
    simp only [List.map_nil, List.sum_nil] at hsum'
    omega
  · left
    omega

theorem sum_ahead_writing (k : Call) (ws : List Write) :
    ((ws.map (Task.writing k)).map Task.ahead).sum = 0 := by
  induction ws with
  | nil => rfl
  | cons w ws ih => simpa [Task.ahead] using ih

/-- What a task's next step leaves is less than what was there. -/
theorem ahead_advance {i : ℕ} {err : Bool} (hi : i < s.tasks.length)
    (hn : Next s (.advance i err) s') : s'.ahead < s.ahead := by
  have hlt : ∀ {t t' : Task}, t'.ahead < t.ahead → ([t'].map Task.ahead).sum < t.ahead := by
    intro t t' h
    simpa using h
  cases hn with
  | stay hs => exact absurd (List.getElem?_eq_none_iff.mp (hs i err rfl)) (by omega)
  | lookup ha c p q hp => exact absurd rfl (ha i err)
  | tapped ha c m r hm hr => exact absurd rfl (ha i err)
  | load ha c m hm => exact absurd rfl (ha i err)
  | ended _ _ t ht he => exact ahead_lt ht (List.append_nil _).symm (Or.inl rfl)
  | answer _ _ flow c p q ht result hr =>
    exact ahead_lt ht rfl (Or.inr (hlt (Nat.lt_succ_self p.ahead)))
  | free _ _ flow c username result ht hr =>
    exact ahead_lt ht rfl (Or.inr (hlt (show 2 < 3 by omega)))
  | loggedIn _ _ flow c u ht hc => exact ahead_lt ht (List.append_nil _).symm (Or.inl rfl)
  | checked _ _ flow c username result ht hr =>
    exact ahead_lt ht rfl (Or.inr (hlt (show 3 + 1 < 5 by omega)))
  | called _ _ k ht hm =>
    unfold State.call
    split_ifs with hop
    · exact ahead_lt ht rfl (Or.inr (hlt (show 2 < 3 by omega)))
    · refine ahead_lt ht rfl (Or.inr ?_)
      rw [sum_ahead_writing]
      show 0 < 3
      omega
  | loadAnswer _ _ flow c uuid ht answer ha he =>
    exact ahead_lt ht rfl (Or.inr (hlt (show 1 < 2 by omega)))
  | loaded _ _ flow c answer ht m hm =>
    exact ahead_lt ht (List.append_nil _).symm (Or.inl rfl)
  | stored _ k w ht => exact ahead_lt ht (List.append_nil _).symm (Or.inl rfl)
  | deleteFailed _ k ht => exact ahead_lt ht rfl (Or.inr (hlt (show 1 < 2 by omega)))
  | deleteStored _ k ht => exact ahead_lt ht rfl (Or.inr (hlt (show 1 < 2 by omega)))
  | completed _ _ err' k ht m hm =>
    refine ahead_lt ht rfl (Or.inr ?_)
    rw [sum_ahead_writing]
    show 0 < 1
    omega
  | enrollFailed _ flow u ht => exact ahead_lt ht (List.append_nil _).symm (Or.inl rfl)
  | enrolled _ flow u ht => exact ahead_lt ht (List.append_nil _).symm (Or.inl rfl)

theorem ahead_step {a : Action} (ha : Outstanding s a) : (step s a).ahead < s.ahead := by
  cases a with
  | advance i err => exact ahead_advance ha (next_step s (.advance i err))
  | createUser i uid =>
    obtain ⟨⟨flow, username, ht⟩, hu⟩ := ha
    have hstep : step s (.createUser i uid) = (s.drop i).enrol flow username uid := by
      simp only [step, ht, hu]
    rw [hstep]
    refine ahead_lt ht rfl (Or.inr ?_)
    show 1 < 2
    omega
  | _ => exact ha.elim

/-- A state at which no outstanding step is left is one without tasks. -/
theorem outstanding_iff : (∃ a, Outstanding s a) ↔ s.tasks ≠ [] := by
  constructor
  · rintro ⟨a, ha⟩ hs
    cases a with
    | advance i err => simp [Outstanding, hs] at ha
    | createUser i uid => simp [Outstanding, hs] at ha
    | _ => exact ha
  · intro hs
    exact ⟨.advance 0 false, List.length_pos_iff.mpr hs⟩

/-- However the outstanding steps are chosen and whatever the backend answers, no sequence of
them goes on for ever. -/
theorem comes_to_rest {σ : ℕ → State} (hσ : ∀ n, (σ n).tasks ≠ [] →
    ∃ a, Outstanding (σ n) a ∧ σ (n + 1) = step (σ n) a) : ∃ n, (σ n).tasks = [] := by
  refine Runs.eventually (P := fun s => s.tasks = []) State.ahead fun n hn => ?_
  obtain ⟨a, ha, heq⟩ := hσ n hn
  rw [heq]
  exact ahead_step ha

end

open PlainKit

/-- Ann's request to Bob, each task taken in turn. -/
theorem comes_to_rest_sent : ∃ n, (Runs.run step (Runs.run step abc
    ([.logIn 0 "a"] ++ advances 0 2 ++ [.addUserButtonPressed 0 "bob"])) (advances 0 n)).tasks = [] := by
  refine comes_to_rest fun n hn => ⟨.advance 0 false, List.length_pos_iff.mpr hn, ?_⟩
  have hsucc : advances 0 (n + 1) = advances 0 n ++ [.advance 0 false] := List.replicate_succ'
  rw [hsucc, Runs.run_append]
  rfl

end JamSession.Interleaved
