import Mathlib.Data.List.Basic

/-! Regular expressions with an anchor, counted repetition and lookahead. What an expression
matches is said by rules, from one place of a text to another; a backtracking matcher finds
all the places where a match from a given one can end, and finds exactly those. An expression
accepts a text if it matches the whole of it: an anchor at the front changes nothing there, a
lookahead at the front is one more condition on the text, and a repeated set at the end has
all the rest of it to match. -/

namespace Regex

/-- A place in a text: what stands before it, the nearest first, and what stands after it. -/
structure Cursor (α : Type*) where
  before : List α
  after : List α

inductive Pattern (α : Type*)
  /-- `^` -/
  | start
  /-- `[...]` -/
  | set (p : α → Bool)
  | seq (r s : Pattern α)
  /-- `r{n,}`, and `r*` for `n = 0` -/
  | atLeast (n : ℕ) (r : Pattern α)
  /-- `(?=r)` -/
  | ahead (r : Pattern α)

variable {α : Type*} {r s : Pattern α} {c d e : Cursor α} {n : ℕ}

/-- The expression matches what stands between the two places. -/
inductive Matches : Pattern α → Cursor α → Cursor α → Prop
  | start {t : List α} : Matches .start ⟨[], t⟩ ⟨[], t⟩
  | set {p : α → Bool} {x : α} {b t : List α} (hx : p x = true) :
    Matches (.set p) ⟨b, x :: t⟩ ⟨x :: b, t⟩
  | seq {r s : Pattern α} {c d e : Cursor α} (hr : Matches r c d) (hs : Matches s d e) :
    Matches (.seq r s) c e
  | done {r : Pattern α} {c : Cursor α} : Matches (.atLeast 0 r) c c
  | again {n : ℕ} {r : Pattern α} {c d e : Cursor α} (hr : Matches r c d)
    (h : Matches (.atLeast (n - 1) r) d e) : Matches (.atLeast n r) c e
  | ahead {r : Pattern α} {c d : Cursor α} (hr : Matches r c d) : Matches (.ahead r) c c

/-! ### The matcher -/

/-- The ends of `n` rounds of `f`. -/
def rounds (f : Cursor α → List (Cursor α)) : ℕ → Cursor α → List (Cursor α)
  | 0, c => [c]
  | n + 1, c => (f c).flatMap (rounds f n)

/-- The ends of up to `fuel` rounds of `f`. A round that consumes nothing is not repeated. -/
def closure (f : Cursor α → List (Cursor α)) : ℕ → Cursor α → List (Cursor α)
  | 0, c => [c]
  | fuel + 1, c => c :: (f c).flatMap fun d =>
    if d.after.length < c.after.length then closure f fuel d else []

/-- Where the matches from a place end. -/
def Pattern.ends : Pattern α → Cursor α → List (Cursor α)
  | .start, c => if c.before.isEmpty then [c] else []
  | .set p, c =>
    match c.after with
    | [] => []
    | x :: t => if p x then [⟨x :: c.before, t⟩] else []
  | .seq r s, c => (r.ends c).flatMap s.ends
  | .atLeast n r, c => (rounds r.ends n c).flatMap fun d => closure r.ends d.after.length d
  | .ahead r, c => if (r.ends c).isEmpty then [] else [c]

/-- A match leaves the place where it is or moves it on. -/
theorem Matches.progress (h : Matches r c d) : d = c ∨ d.after.length < c.after.length := by
  induction h with
  | start => exact Or.inl rfl
  | set => exact Or.inr (Nat.lt_succ_self _)
  | seq _ _ ihr ihs =>
    rcases ihr with rfl | hr
    · exact ihs
    · rcases ihs with rfl | hs
      · exact Or.inr hr
      · exact Or.inr (Nat.lt_trans hs hr)
  | done => exact Or.inl rfl
  | again _ _ ihr ih =>
    rcases ihr with rfl | hr
    · exact ih
    · rcases ih with rfl | h
      · exact Or.inr hr
      · exact Or.inr (Nat.lt_trans h hr)
  | ahead => exact Or.inl rfl

section Sound

variable {f : Cursor α → List (Cursor α)} (hf : ∀ {c d}, d ∈ f c → Matches r c d)

include hf

theorem matches_of_mem_closure {fuel : ℕ} (h : d ∈ closure f fuel c) :
    Matches (.atLeast 0 r) c d := by
  induction fuel generalizing c with
  | zero =>
    rw [closure, List.mem_singleton] at h
    rw [h]
    exact .done
  | succ fuel ih =>
    rw [closure, List.mem_cons, List.mem_flatMap] at h
    rcases h with rfl | ⟨e, he, hd⟩
    · exact .done
    · split at hd
      · exact .again (hf he) (ih hd)
      · exact absurd hd List.not_mem_nil

theorem matches_of_mem_rounds (h : d ∈ rounds f n c) (hd : Matches (.atLeast 0 r) d e) :
    Matches (.atLeast n r) c e := by
  induction n generalizing c with
  | zero =>
    rw [rounds, List.mem_singleton] at h
    rwa [← h]
  | succ n ih =>
    rw [rounds, List.mem_flatMap] at h
    obtain ⟨c', hc', h⟩ := h
    exact .again (hf hc') (ih h)

end Sound

theorem matches_of_mem_ends (h : d ∈ r.ends c) : Matches r c d := by
  induction r generalizing c d with
  | start =>
    obtain ⟨b, t⟩ := c
    cases b with
    | nil =>
      rw [List.mem_singleton.mp h]
      exact .start
    | cons x b => exact absurd h List.not_mem_nil
  | set p =>
    obtain ⟨b, t⟩ := c
    cases t with
    | nil => exact absurd h List.not_mem_nil
    | cons x t =>
      simp only [Pattern.ends] at h
      split at h
      · rw [List.mem_singleton.mp h]
        exact .set ‹_›
      · exact absurd h List.not_mem_nil
  | seq r s ihr ihs =>
    obtain ⟨e, he, hd⟩ := List.mem_flatMap.mp h
    exact .seq (ihr he) (ihs hd)
  | atLeast n r ih =>
    obtain ⟨e, he, hd⟩ := List.mem_flatMap.mp h
    exact matches_of_mem_rounds ih he (matches_of_mem_closure ih hd)
  | ahead r ih =>
    simp only [Pattern.ends] at h
    split at h
    · exact absurd h List.not_mem_nil
    · rename_i hne
      obtain ⟨e, he⟩ := List.exists_mem_of_ne_nil _ (by simpa using hne)
      rw [List.mem_singleton.mp h]
      exact .ahead (ih he)

theorem mem_closure_self (f : Cursor α → List (Cursor α)) (fuel : ℕ) (c : Cursor α) :
    c ∈ closure f fuel c := by
  cases fuel with
  | zero => exact List.mem_singleton_self c
  | succ fuel => exact List.mem_cons_self

/-- More fuel loses no end. -/
theorem closure_mono {f : Cursor α → List (Cursor α)} {k m : ℕ} (hkm : k ≤ m)
    (h : d ∈ closure f k c) : d ∈ closure f m c := by
  induction k generalizing m c with
  | zero =>
    rw [closure, List.mem_singleton] at h
    rw [h]
    exact mem_closure_self f m c
  | succ k ih =>
    obtain ⟨m, rfl⟩ : ∃ j, m = j + 1 := ⟨m - 1, by omega⟩
    rw [closure, List.mem_cons, List.mem_flatMap] at h ⊢
    refine h.imp_right ?_
    rintro ⟨e, he, hd⟩
    refine ⟨e, he, ?_⟩
    split at hd
    · rw [if_pos ‹_›]
      exact ih (by omega) hd
    · exact absurd hd List.not_mem_nil

/-- One more round in front of a repetition. -/
theorem mem_ends_again (hd : d ∈ r.ends c) (he : e ∈ (Pattern.atLeast (n - 1) r).ends d) :
    e ∈ (Pattern.atLeast n r).ends c := by
  simp only [Pattern.ends, List.mem_flatMap] at he ⊢
  obtain ⟨d', hd', he⟩ := he
  cases n with
  | succ n => exact ⟨d', List.mem_flatMap.mpr ⟨d, hd, hd'⟩, he⟩
  | zero =>
    obtain rfl := List.mem_singleton.mp hd'
    refine ⟨c, List.mem_singleton_self c, ?_⟩
    rcases (matches_of_mem_ends hd).progress with rfl | hlt
    · exact he
    · refine closure_mono (Nat.succ_le_of_lt hlt) ?_
      rw [closure, List.mem_cons, List.mem_flatMap]
      exact Or.inr ⟨d', hd, by rwa [if_pos hlt]⟩

/-- The matcher finds exactly the ends of the matches. -/
theorem mem_ends_iff : d ∈ r.ends c ↔ Matches r c d := by
  constructor
  · exact matches_of_mem_ends
  · intro h
    induction h with
    | start => exact List.mem_singleton_self _
    | set hx => simp [Pattern.ends, hx]
    | seq _ _ ihr ihs => exact List.mem_flatMap.mpr ⟨_, ihr, ihs⟩
    | done =>
      exact List.mem_flatMap.mpr ⟨_, List.mem_singleton_self _, mem_closure_self _ _ _⟩
    | again _ _ ihr ih => exact mem_ends_again ihr ih
    | ahead _ ih =>
      have hne := List.ne_nil_of_mem ih
      simp [Pattern.ends, hne]

/-! ### Matching a whole text -/

/-- Some match from the front of the text. -/
def Pattern.Finds (r : Pattern α) (t : List α) : Prop := ∃ d, Matches r ⟨[], t⟩ d

/-- A match from the front of the text to its end. -/
def Pattern.Accepts (r : Pattern α) (t : List α) : Prop := ∃ b, Matches r ⟨[], t⟩ ⟨b, []⟩

/-- Whether the expression matches the whole text. -/
def Pattern.matchesWhole (r : Pattern α) (t : List α) : Bool :=
  (r.ends ⟨[], t⟩).any (·.after.isEmpty)

theorem matchesWhole_iff {t : List α} : r.matchesWhole t = true ↔ r.Accepts t := by
  simp only [Pattern.matchesWhole, List.any_eq_true, mem_ends_iff, List.isEmpty_iff]
  constructor
  · rintro ⟨⟨b, t'⟩, hm, rfl⟩
    exact ⟨b, hm⟩
  · rintro ⟨b, hm⟩
    exact ⟨_, hm, rfl⟩

theorem accepts_start {t : List α} : (Pattern.seq .start r).Accepts t ↔ r.Accepts t := by
  constructor
  · rintro ⟨b, h⟩
    cases h with
    | seq hstart hr =>
      cases hstart
      exact ⟨b, hr⟩
  · rintro ⟨b, hr⟩
    exact ⟨b, .seq .start hr⟩

theorem accepts_ahead {t : List α} :
    (Pattern.seq (.ahead r) s).Accepts t ↔ r.Finds t ∧ s.Accepts t := by
  constructor
  · rintro ⟨b, h⟩
    cases h with
    | seq hahead hs =>
      cases hahead with
      | ahead hr => exact ⟨⟨_, hr⟩, b, hs⟩
  · rintro ⟨⟨d, hr⟩, b, hs⟩
    exact ⟨b, .seq (.ahead hr) hs⟩

/-! ### Repeated sets -/

section Sets

variable {p q : α → Bool}

/-- A repeated set matches a stretch of its symbols. -/
theorem matches_atLeast_set : Matches (.atLeast n (.set p)) c d ↔
    ∃ w, c.after = w ++ d.after ∧ d.before = w.reverse ++ c.before ∧ n ≤ w.length ∧
      ∀ x ∈ w, p x = true := by
  constructor
  · intro h
    generalize hr : Pattern.atLeast n (.set p) = r at h
    induction h generalizing n with
    | start | set | seq | ahead => cases hr
    | done =>
      cases hr
      exact ⟨[], rfl, rfl, Nat.le_refl 0, fun x hx => absurd hx List.not_mem_nil⟩
    | again hset _ _ ih =>
      cases hr
      cases hset with
      | set hx =>
        obtain ⟨w, hafter, hbefore, hn, hw⟩ := ih rfl
        refine ⟨_ :: w, congrArg _ hafter, ?_, ?_, List.forall_mem_cons.mpr ⟨hx, hw⟩⟩
        · rw [hbefore, List.reverse_cons, List.append_assoc, List.singleton_append]
        · rw [List.length_cons]
          omega
  · rintro ⟨w, hafter, hbefore, hn, hw⟩
    obtain ⟨b, t⟩ := c
    obtain ⟨b', t'⟩ := d
    dsimp only at hafter hbefore
    subst hafter hbefore
    induction w generalizing n b with
    | nil =>
      obtain rfl := Nat.le_zero.mp hn
      exact .done
    | cons x w ih =>
      obtain ⟨hx, hw⟩ := List.forall_mem_cons.mp hw
      refine .again (.set hx) ?_
      rw [List.reverse_cons, List.append_assoc, List.singleton_append]
      exact ih (Nat.sub_le_of_le_add hn) hw (x :: b)

theorem accepts_atLeast_set {t : List α} :
    (Pattern.atLeast n (.set p)).Accepts t ↔ n ≤ t.length ∧ ∀ x ∈ t, p x = true := by
  constructor
  · rintro ⟨b, h⟩
    obtain ⟨w, hafter, -, hn, hw⟩ := matches_atLeast_set.mp h
    obtain rfl : t = w := hafter.trans (List.append_nil w)
    exact ⟨hn, hw⟩
  · rintro ⟨hn, ht⟩
    exact ⟨t.reverse, matches_atLeast_set.mpr
      ⟨t, (List.append_nil t).symm, (List.append_nil _).symm, hn, ht⟩⟩

/-- A set behind a repeated one is found where only symbols of that one stand before it. -/
theorem finds_set_after {t : List α} : (Pattern.seq (.atLeast 0 (.set q)) (.set p)).Finds t ↔
    ∃ w x t', t = w ++ x :: t' ∧ (∀ y ∈ w, q y = true) ∧ p x = true := by
  constructor
  · rintro ⟨d, h⟩
    cases h with
    | seq hq hp =>
      obtain ⟨w, hafter, -, -, hw⟩ := matches_atLeast_set.mp hq
      cases hp with
      | set hx => exact ⟨w, _, _, hafter, hw, hx⟩
  · rintro ⟨w, x, t', rfl, hw, hx⟩
    exact ⟨⟨x :: w.reverse, t'⟩, .seq (matches_atLeast_set.mpr
      ⟨w, rfl, (List.append_nil _).symm, Nat.zero_le _, hw⟩) (.set hx)⟩

theorem finds_set_iff_exists_mem {t : List α} (ht : ∀ x ∈ t, q x = true) :
    (Pattern.seq (.atLeast 0 (.set q)) (.set p)).Finds t ↔ ∃ x ∈ t, p x = true := by
  rw [finds_set_after]
  constructor
  · rintro ⟨w, x, t', rfl, -, hx⟩
    exact ⟨x, List.mem_append_right w List.mem_cons_self, hx⟩
  · rintro ⟨x, hmem, hx⟩
    obtain ⟨w, t', rfl⟩ := List.append_of_mem hmem
    exact ⟨w, x, t', rfl, fun y hy => ht y (List.mem_append_left _ hy), hx⟩

end Sets

end Regex
