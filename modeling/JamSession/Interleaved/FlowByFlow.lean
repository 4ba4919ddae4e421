import JamSession.Interleaved.AtOnce
import JamSession.Firestore.PlainKit

/-! The two models of the friend system against each other. When every flow is finished before
the next one starts, and the backend fails no step, the interleaved system reaches exactly the
states that the sequential one reaches by the actions that the screens offer. -/

namespace JamSession.Interleaved

open UserController JamSession.Sequential

section

variable [UIKit]

/-- An action of a screen of the friend system. -/
def Action.OfScreen : Action → Prop
  | .signUp _ _ | .createUser _ _ | .advance _ _ => False
  | _ => True

/-- An action and its tasks, each taken in turn, `f.2` of them. -/
def flow (s : State) (f : Action × ℕ) : State := Runs.run step s (f.1 :: advances 0 f.2)

/-- The flow is one of the friend system and leaves nothing outstanding. -/
def RunsOut (s : State) (f : Action × ℕ) : Prop := f.1.OfScreen ∧ (flow s f).tasks = []

/-- What the screens offer: requests to typed names, accepts of requests in memory, and the
swipes, which look up any text. -/
def Offered (t : Sequential.State) : Sequential.Action → Prop
  | .login _ _ | .load _ => True
  | .call _ .send (.byUsername un) => un ≠ ""
  | .call c .accept (.byUuid a) => ∃ ir, Sequential.addFwen t c ir = some (.call c .accept (.byUuid a))
  | .call _ .ignore (.byUuid _) | .call _ .unfriend _ | .call _ .block (.byUsername _) => True
  | .call _ _ _ => False

variable {s : State}

theorem offered_iff {b : Sequential.Action} :
    Offered s.sequential b ↔ ∃ a : Action, a.OfScreen ∧ a.atOnce s = some b := by
  constructor
  · intro h
    match b, h with
    | .login c uuid, _ => exact ⟨.logIn c uuid, trivial, rfl⟩
    | .load c, _ => exact ⟨.load c, trivial, rfl⟩
    | .call c .send (.byUsername un), h => exact ⟨.addUserButtonPressed c un, trivial, if_neg h⟩
    | .call c .accept (.byUuid a), ⟨ir, hr⟩ => exact ⟨.addFwen c ir, trivial, hr⟩
    | .call c .ignore (.byUuid a), _ => exact ⟨.ignore c a, trivial, rfl⟩
    | .call c .unfriend q, _ => exact ⟨.unfriend c q, trivial, rfl⟩
    | .call c .block (.byUsername un), _ => exact ⟨.block c un, trivial, rfl⟩
  · rintro ⟨a, -, h⟩
    cases a with
    | logIn c uuid =>
      cases h
      trivial
    | load c =>
      cases h
      trivial
    | addUserButtonPressed c un =>
      simp only [Action.atOnce, Option.ite_none_left_eq_some, Option.some.injEq] at h
      obtain ⟨hne, rfl⟩ := h
      exact hne
    | addFwen c ir =>
      obtain ⟨m, hm, hb⟩ := Option.bind_eq_some_iff.mp h
      obtain ⟨r, hr, rfl⟩ := Option.map_eq_some_iff.mp hb
      exact ⟨ir, h⟩
    | ignore c uuid =>
      cases h
      trivial
    | unfriend c q =>
      cases h
      trivial
    | block c username =>
      cases h
      trivial
    | signUp c username => cases h
    | createUser i uid => cases h
    | advance i err => cases h

/-! ### One flow -/

/-- With nothing outstanding there is nothing to take. -/
theorem run_advances_idle (hs : s.tasks = []) (n : ℕ) : Runs.run step s (advances 0 n) = s := by
  induction n with
  | zero => rfl
  | succ n ih =>
    rw [advances, List.replicate_succ, Runs.run_cons]
    have hstep : step s (.advance 0 false) = s := by simp [step, hs]
    rw [hstep]
    exact ih

/-- However long the tasks of a state are taken, the state without tasks is one. -/
theorem EndsIn.unique {r : Sequential.State} (h : EndsIn s r) {n : ℕ}
    (hn : (Runs.run step s (advances 0 n)).tasks = []) :
    (Runs.run step s (advances 0 n)).sequential = r := by
  obtain ⟨k, hk, hr⟩ := h
  have hsplit : ∀ i j, Runs.run step s (advances 0 (i + j)) =
      Runs.run step (Runs.run step s (advances 0 i)) (advances 0 j) := fun i j => by
    rw [advances, List.replicate_add, Runs.run_append]
    rfl
  rcases Nat.le_total n k with hle | hle
  · obtain ⟨j, rfl⟩ := Nat.exists_eq_add_of_le hle
    rwa [hsplit, run_advances_idle hn] at hr
  · obtain ⟨j, rfl⟩ := Nat.exists_eq_add_of_le hle
    rwa [hsplit, run_advances_idle hk]

/-- An action of a screen that amounts to nothing does nothing. -/
theorem step_of_nothing {a : Action} (ha : a.OfScreen) (h : a.atOnce s = none) : step s a = s := by
  cases a with
  | addUserButtonPressed c un =>
    simp only [Action.atOnce, ite_eq_left_iff, reduceCtorEq, imp_false, not_not] at h
    simp [step, h]
  | addFwen c ir =>
    have hrow : ((s.session c).bind fun m => m.friendRequests[ir]?) = none := by
      cases hm : s.session c with
      | none => rfl
      | some m =>
        simp only [Action.atOnce, Sequential.addFwen, State.sequential, hm, Option.bind_some,
          Option.map_eq_none_iff] at h
        exact h
    simp [step, hrow]
  | signUp c username => exact ha.elim
  | createUser i uid => exact ha.elim
  | advance i err => exact ha.elim
  | logIn c uuid => cases h
  | load c => cases h
  | ignore c uuid => cases h
  | unfriend c q => cases h
  | block c username => cases h

/-- A finished flow is what the action amounts to. -/
theorem sequential_flow (hs : s.tasks = []) {f : Action × ℕ} (hf : RunsOut s f) :
    (flow s f).sequential =
      Runs.run Sequential.step s.sequential (f.1.atOnce s).toList := by
  obtain ⟨a, n⟩ := f
  obtain ⟨ha, hn⟩ := hf
  rw [flow, Runs.run_cons] at hn ⊢
  cases hb : a.atOnce s with
  | none =>
    rw [step_of_nothing ha hb, run_advances_idle hs]
    rfl
  | some b => exact (endsIn_atOnce hs hb).unique hn

/-- An offered action is a finished flow. -/
theorem exists_flow (hs : s.tasks = []) {b : Sequential.Action} (hb : Offered s.sequential b) :
    ∃ f, RunsOut s f ∧ (flow s f).sequential = Sequential.step s.sequential b := by
  obtain ⟨a, ha, hab⟩ := offered_iff.mp hb
  obtain ⟨n, htasks, hr⟩ := endsIn_atOnce hs hab
  exact ⟨(a, n), ⟨ha, htasks⟩, hr⟩

/-! ### Runs -/

/-- The states that finished flows reach are those that the offered actions reach. -/
theorem flows_iff_sequential (hs : s.tasks = []) (r : Sequential.State) :
    (∃ fs, Runs.Each flow RunsOut s fs ∧ (Runs.run flow s fs).sequential = r) ↔
      ∃ bs, Runs.Each Sequential.step Offered s.sequential bs ∧
        Runs.run Sequential.step s.sequential bs = r := by
  constructor
  · rintro ⟨fs, hfs, rfl⟩
    induction fs generalizing s with
    | nil => exact ⟨[], trivial, rfl⟩
    | cons f fs ih =>
      have hflow := sequential_flow hs hfs.1
      obtain ⟨bs, hbs, hr⟩ := ih hfs.1.2 hfs.2
      rw [Runs.run_cons, ← hr]
      cases hb : f.1.atOnce s with
      | none =>
        rw [hb, Option.toList_none, Runs.run_nil] at hflow
        exact ⟨bs, hflow ▸ hbs, by rw [hflow]⟩
      | some b =>
        rw [hb, Option.toList_some, Runs.run_cons, Runs.run_nil] at hflow
        exact ⟨b :: bs, ⟨offered_iff.mpr ⟨f.1, hfs.1.1, hb⟩, hflow ▸ hbs⟩, by
          rw [hflow, Runs.run_cons]⟩
  · rintro ⟨bs, hbs, rfl⟩
    induction bs generalizing s with
    | nil => exact ⟨[], trivial, rfl⟩
    | cons b bs ih =>
      obtain ⟨f, hf, hflow⟩ := exists_flow hs hbs.1
      obtain ⟨fs, hfs, hr⟩ := ih hf.2 (hflow ▸ hbs.2)
      exact ⟨f :: fs, ⟨hf, hfs⟩, by rw [Runs.run_cons, hr, hflow, Runs.run_cons]⟩

end

open PlainKit

/-- Ann's request to Bob and Bob's accept, as flows. -/
theorem flows_iff_sequential_befriended :
    (signedUp [("a", "ann"), ("b", "bob")]).tasks = [] ∧
      ∃ fs, Runs.Each flow RunsOut (signedUp [("a", "ann"), ("b", "bob")]) fs ∧
        (Runs.run flow (signedUp [("a", "ann"), ("b", "bob")]) fs).sequential =
          Runs.run Sequential.step (signedUp [("a", "ann"), ("b", "bob")]).sequential
            [.login 0 "a", .login 1 "b", .call 0 .send (.byUsername "bob"), .load 1,
              .call 1 .accept (.byUuid "a")] := by
  refine ⟨rfl, (flows_iff_sequential rfl _).mpr ⟨_, ?_, rfl⟩⟩
  exact ⟨trivial, trivial, (by decide : "bob" ≠ ""), trivial, ⟨0, rfl⟩, trivial⟩

end JamSession.Interleaved
