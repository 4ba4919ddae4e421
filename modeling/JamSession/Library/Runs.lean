import Mathlib.Data.List.Basic
import Mathlib.Order.WellFounded

/-! Runs of a deterministic step function on a state type. The steps of a run are
listed as actions (or as the labels of a scheduler), so a claim about every run is a
claim about every list. The rules below turn facts about one step into facts about
whole runs: an invariant, an invariant that needs a condition on the steps, and an
exact condition, which holds of all steps if and only if the property holds in all
states. A measure shows that runs end, and a simulation relates the runs of two systems. -/

namespace Runs

variable {S A : Type*}

/-- The state after a list of actions. -/
def run (step : S → A → S) (s : S) (as : List A) : S := as.foldl step s

@[simp] theorem run_nil (step : S → A → S) (s : S) : run step s [] = s := rfl

@[simp] theorem run_cons (step : S → A → S) (s : S) (a : A) (as : List A) :
    run step s (a :: as) = run step (step s a) as := rfl

theorem run_append (step : S → A → S) (s : S) (as bs : List A) :
    run step s (as ++ bs) = run step (run step s as) bs := List.foldl_append

/-- `P` holds in every state of the run, the first one included. -/
def Always (step : S → A → S) (P : S → Prop) : S → List A → Prop
  | s, [] => P s
  | s, a :: as => P s ∧ Always step P (step s a) as

/-- Every action of the run meets `C` in the state before it. -/
def Each (step : S → A → S) (C : S → A → Prop) : S → List A → Prop
  | _, [] => True
  | s, a :: as => C s a ∧ Each step C (step s a) as

/-- `P` holds from the state on, up to the first step that meets `Q`. -/
def Unless (step : S → A → S) (P : S → Prop) (Q : S → A → Prop) : S → List A → Prop
  | s, [] => P s
  | s, a :: as => P s ∧ (Q s a ∨ Unless step P Q (step s a) as)

/-- From each step on that meets `T`, `P` holds up to the first step that meets `Q`. -/
def After (step : S → A → S) (T : S → A → Prop) (P : S → Prop) (Q : S → A → Prop) :
    S → List A → Prop
  | _, [] => True
  | s, a :: as => (T s a → Unless step P Q (step s a) as) ∧ After step T P Q (step s a) as

instance Each.decidable (step : S → A → S) (C : S → A → Prop) [∀ s a, Decidable (C s a)] :
    ∀ (s : S) (as : List A), Decidable (Each step C s as)
  | _, [] => isTrue trivial
  | s, a :: as =>
    have := Each.decidable step C (step s a) as
    inferInstanceAs (Decidable (C s a ∧ Each step C (step s a) as))

variable {step : S → A → S} {P I : S → Prop} {C : S → A → Prop}

theorem Always.first {s : S} {as : List A} (h : Always step P s as) : P s := by
  cases as with
  | nil => exact h
  | cons a as => exact h.1

theorem Always.mono {Q : S → Prop} (hPQ : ∀ s, P s → Q s) {s : S} {as : List A}
    (h : Always step P s as) : Always step Q s as := by
  induction as generalizing s with
  | nil => exact hPQ s h
  | cons a as ih => exact ⟨hPQ s h.1, ih h.2⟩

/-- `Always` speaks of the states after the prefixes of the run. -/
theorem always_iff {s : S} {as : List A} :
    Always step P s as ↔ ∀ bs, bs <+: as → P (run step s bs) := by
  induction as generalizing s with
  | nil =>
    constructor
    · intro h bs hbs
      rw [List.prefix_nil.mp hbs]
      exact h
    · intro h
      exact h [] (List.prefix_rfl)
  | cons a as ih =>
    constructor
    · rintro ⟨hs, hrest⟩ bs hbs
      cases bs with
      | nil => exact hs
      | cons b bs =>
        obtain ⟨rfl, hpre⟩ := List.cons_prefix_cons.mp hbs
        exact ih.mp hrest bs hpre
    · intro h
      exact ⟨h [] List.nil_prefix, ih.mpr fun bs hbs =>
        h (a :: bs) (List.cons_prefix_cons.mpr ⟨rfl, hbs⟩)⟩

theorem Always.last {s : S} {as : List A} (h : Always step P s as) : P (run step s as) :=
  always_iff.mp h as List.prefix_rfl

theorem Each.mono {D : S → A → Prop} (hCD : ∀ s a, C s a → D s a) {s : S} {as : List A}
    (h : Each step C s as) : Each step D s as := by
  induction as generalizing s with
  | nil => trivial
  | cons a as ih => exact ⟨hCD s a h.1, ih h.2⟩

theorem Each.and {D : S → A → Prop} {s : S} {as : List A} (h : Each step C s as)
    (h' : Each step D s as) : Each step (fun s a => C s a ∧ D s a) s as := by
  induction as generalizing s with
  | nil => trivial
  | cons a as ih => exact ⟨⟨h.1, h'.1⟩, ih h.2 h'.2⟩

theorem each_of_forall (h : ∀ s a, C s a) (s : S) (as : List A) : Each step C s as := by
  induction as generalizing s with
  | nil => trivial
  | cons a as ih => exact ⟨h s a, ih (step s a)⟩

/-- An invariant of the step function holds after every run. -/
theorem invariant (hstep : ∀ s a, I s → I (step s a)) {s : S} (hs : I s) (as : List A) :
    I (run step s as) := by
  induction as generalizing s with
  | nil => exact hs
  | cons a as ih => exact ih (hstep s a hs)

/-- An invariant of the step function holds in every state of every run. -/
theorem always_of_invariant (hstep : ∀ s a, I s → I (step s a)) {s : S} (hs : I s) (as : List A) :
    Always step I s as :=
  always_iff.mpr fun bs _ => invariant hstep hs bs

/-- An invariant that each step keeps under a condition holds in every state of a run
whose steps all meet the condition. -/
theorem always_of_each (hstep : ∀ s a, I s → C s a → I (step s a)) {s : S} {as : List A}
    (hs : I s) (hC : Each step C s as) : Always step I s as := by
  induction as generalizing s with
  | nil => exact hs
  | cons a as ih => exact ⟨hs, ih (hstep s a hs hC.1) hC.2⟩

theorem run_of_each (hstep : ∀ s a, I s → C s a → I (step s a)) {s : S} {as : List A}
    (hs : I s) (hC : Each step C s as) : I (run step s as) :=
  (always_of_each hstep hs hC).last

/-- The exact condition, for runs of actions from `D`. `I` carries the property `P` and what
is needed to reason about the next step; a step from `I` ends in `P` if and only if it meets
`C`, and ends in `I` again when it does. -/
theorem always_iff_each_on {D : A → Prop} (hIP : ∀ s, I s → P s)
    (hexact : ∀ s a, I s → D a → (P (step s a) ↔ C s a))
    (hstep : ∀ s a, I s → D a → C s a → I (step s a)) {s : S} (hs : I s) {as : List A}
    (has : ∀ a ∈ as, D a) : Always step P s as ↔ Each step C s as := by
  induction as generalizing s with
  | nil => exact iff_of_true (hIP s hs) trivial
  | cons a as ih =>
    have ha := has a List.mem_cons_self
    have hrest := fun b hb => has b (List.mem_cons_of_mem a hb)
    constructor
    · rintro ⟨-, hafter⟩
      have hC : C s a := (hexact s a hs ha).mp hafter.first
      exact ⟨hC, (ih (hstep s a hs ha hC) hrest).mp hafter⟩
    · rintro ⟨hC, hafter⟩
      exact ⟨hIP s hs, (ih (hstep s a hs ha hC) hrest).mpr hafter⟩

/-- The exact condition, for all runs. -/
theorem always_iff_each (hIP : ∀ s, I s → P s) (hexact : ∀ s a, I s → (P (step s a) ↔ C s a))
    (hstep : ∀ s a, I s → C s a → I (step s a)) {s : S} (hs : I s) (as : List A) :
    Always step P s as ↔ Each step C s as :=
  always_iff_each_on (D := fun _ => True) hIP (fun s a h _ => hexact s a h)
    (fun s a h _ => hstep s a h) hs fun _ _ => trivial

/-! ### Properties that hold until an event -/

theorem Unless.first {Q : S → A → Prop} {s : S} {as : List A} (h : Unless step P Q s as) : P s := by
  cases as with
  | nil => exact h
  | cons a as => exact h.1

/-- What `After` says about the state that a step leads to. -/
theorem After.next {T Q : S → A → Prop} {s : S} {bs cs : List A} {a : A}
    (h : After step T P Q s (bs ++ a :: cs)) (hT : T (run step s bs) a) :
    P (step (run step s bs) a) := by
  induction bs generalizing s with
  | nil => exact (h.1 hT).first
  | cons b bs ih => exact ih h.2 hT

/-- `J` carries the property from step to step, as long as the event does not occur. -/
theorem unless_of_each {J : S → Prop} {Q : S → A → Prop} (hJP : ∀ s, J s → P s)
    (hstep : ∀ s a, I s → C s a → I (step s a))
    (hJ : ∀ s a, I s → C s a → J s → ¬ Q s a → J (step s a)) {s : S} {as : List A} (hs : I s)
    (hJs : J s) (hC : Each step C s as) : Unless step P Q s as := by
  induction as generalizing s with
  | nil => exact hJP s hJs
  | cons a as ih =>
    refine ⟨hJP s hJs, ?_⟩
    by_cases hQ : Q s a
    · exact Or.inl hQ
    · exact Or.inr (ih (hstep s a hs hC.1) (hJ s a hs hC.1 hJs hQ) hC.2)

theorem after_of_each {J : S → Prop} {T Q : S → A → Prop} (hJP : ∀ s, J s → P s)
    (hstep : ∀ s a, I s → C s a → I (step s a))
    (hT : ∀ s a, I s → C s a → T s a → J (step s a))
    (hJ : ∀ s a, I s → C s a → J s → ¬ Q s a → J (step s a)) {s : S} {as : List A} (hs : I s)
    (hC : Each step C s as) : After step T P Q s as := by
  induction as generalizing s with
  | nil => trivial
  | cons a as ih =>
    have hs' := hstep s a hs hC.1
    exact ⟨fun h => unless_of_each hJP hstep hJ hs' (hT s a hs hC.1 h) hC.2, ih hs' hC.2⟩

/-! ### Runs that end -/

/-- A run that lowers a measure until `P` holds reaches `P`. -/
theorem eventually {α : Type*} [LT α] [WellFoundedLT α] (m : S → α) {σ : ℕ → S}
    (hσ : ∀ n, ¬ P (σ n) → m (σ (n + 1)) < m (σ n)) : ∃ n, P (σ n) := by
  by_contra! hne
  obtain ⟨n, hn⟩ := WellFounded.not_rel_apply_succ (r := (· < ·)) fun n => m (σ n)
  exact hn (hσ n (hne n))

/-! ### Simulations -/

variable {T B : Type*}

/-- The steps of an upper system that a run amounts to, none or some for each step. -/
def labels (step : S → A → S) (label : S → A → List B) : S → List A → List B
  | _, [] => []
  | s, a :: as => label s a ++ labels step label (step s a) as

variable {step' : T → B → T} {label : S → A → List B} {R : S → T → Prop}

@[simp] theorem labels_nil (s : S) : labels step label s [] = [] := rfl

@[simp] theorem labels_cons (s : S) (a : A) (as : List A) :
    labels step label s (a :: as) = label s a ++ labels step label (step s a) as := rfl

/-- Steps that lead to related states lead there in whole runs, as long as they meet `C`. -/
theorem simulates (hsim : ∀ s t a, C s a → R s t → R (step s a) (run step' t (label s a))) {s : S}
    {t : T} (hR : R s t) {as : List A} (hC : Each step C s as) :
    R (run step s as) (run step' t (labels step label s as)) := by
  induction as generalizing s t with
  | nil => exact hR
  | cons a as ih =>
    rw [run_cons, labels_cons, run_append]
    exact ih (hsim s t a hC.1 hR) hC.2

end Runs
