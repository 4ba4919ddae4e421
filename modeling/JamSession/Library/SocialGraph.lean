import Mathlib.Data.Set.Insert
import Mathlib.Data.Sym.Sym2
import JamSession.Library.Runs

/-! Social graphs over users of any type: who are friends, who has blocked whom, and whose
requests are pending. Friendship is a set of unordered pairs, so it is symmetric in every
state. Two users are friends after a run exactly if the last act that joined or parted them
joined them. -/

/-- `(a, b) ∈ blocked` says that `a` has blocked `b`, and `(a, b) ∈ pending` that a request from
`a` waits for `b`. -/
@[ext]
structure SocialGraph (U : Type*) where
  friends : Set (Sym2 U)
  blocked : Set (U × U)
  pending : Set (U × U)

namespace SocialGraph

variable {U : Type*}

/-- In `accept a b` and `ignore a b` it is `b` who answers the request from `a`. -/
inductive Act (U : Type*)
  | request (a b : U)
  | accept (a b : U)
  | ignore (a b : U)
  | unfriend (a b : U)
  | block (a b : U)

/-- Friends send each other no requests. -/
def step (G : SocialGraph U) : Act U → SocialGraph U
  | .request a b => { G with pending := G.pending ∪ {p | p = (a, b) ∧ s(a, b) ∉ G.friends} }
  | .accept a b => ⟨insert s(a, b) G.friends, G.blocked, G.pending \ {(a, b)}⟩
  | .ignore a b => { G with pending := G.pending \ {(a, b)} }
  | .unfriend a b => { G with friends := G.friends \ {s(a, b)} }
  | .block a b => ⟨G.friends \ {s(a, b)}, insert (a, b) G.blocked, G.pending⟩

namespace Act

/-- The act makes the two friends. -/
def Joins (e : Sym2 U) : Act U → Prop
  | .accept a b => s(a, b) = e
  | _ => False

/-- The act ends the friendship of the two. -/
def Parts (e : Sym2 U) : Act U → Prop
  | .unfriend a b => s(a, b) = e
  | .block a b => s(a, b) = e
  | _ => False

end Act

variable {G : SocialGraph U}

theorem mem_friends_step {x : Act U} {e : Sym2 U} :
    e ∈ (G.step x).friends ↔ x.Joins e ∨ e ∈ G.friends ∧ ¬ x.Parts e := by
  cases x <;> simp [step, Act.Joins, Act.Parts, eq_comm]

/-- The last act of the run that joined or parted the two joined them. -/
def JoinedLast (e : Sym2 U) (xs : List (Act U)) : Prop :=
  ∃ before x after, xs = before ++ x :: after ∧ x.Joins e ∧ ∀ y ∈ after, ¬ y.Parts e

theorem joinedLast_cons {e : Sym2 U} {x : Act U} {xs : List (Act U)} : JoinedLast e (x :: xs) ↔
    (x.Joins e ∧ ∀ y ∈ xs, ¬ y.Parts e) ∨ JoinedLast e xs := by
  constructor
  · rintro ⟨before, y, after, heq, hjoins, hafter⟩
    cases before with
    | nil =>
      obtain ⟨rfl, rfl⟩ := List.cons.inj heq
      exact Or.inl ⟨hjoins, hafter⟩
    | cons z before =>
      obtain ⟨-, rfl⟩ := List.cons.inj heq
      exact Or.inr ⟨before, y, after, rfl, hjoins, hafter⟩
  · rintro (⟨hjoins, hafter⟩ | ⟨before, y, after, rfl, hjoins, hafter⟩)
    · exact ⟨[], x, xs, rfl, hjoins, hafter⟩
    · exact ⟨x :: before, y, after, rfl, hjoins, hafter⟩

theorem mem_friends_run {e : Sym2 U} {xs : List (Act U)} : e ∈ (Runs.run step G xs).friends ↔
    JoinedLast e xs ∨ e ∈ G.friends ∧ ∀ x ∈ xs, ¬ x.Parts e := by
  induction xs generalizing G with
  | nil => simp [JoinedLast]
  | cons x xs ih =>
    rw [Runs.run_cons, ih, mem_friends_step, joinedLast_cons, List.forall_mem_cons]
    constructor
    · rintro (h | ⟨h | h, hxs⟩)
      · exact Or.inl (Or.inr h)
      · exact Or.inl (Or.inl ⟨h, hxs⟩)
      · exact Or.inr ⟨h.1, h.2, hxs⟩
    · rintro ((⟨h, hxs⟩ | h) | ⟨h, hx, hxs⟩)
      · exact Or.inr ⟨Or.inl h, hxs⟩
      · exact Or.inl h
      · exact Or.inr ⟨Or.inr ⟨h, hx⟩, hxs⟩

end SocialGraph
