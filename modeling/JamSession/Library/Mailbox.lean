import Mathlib.Data.Sym.Sym2

/-! Mailboxes between users of any type. Two users have one mailbox, whichever of the two writes,
and a mail is added at its end. -/

/-- A message from one user to another. -/
structure Mail (U M : Type*) where
  sender : U
  receiver : U
  content : M

namespace Mail

variable {U M : Type*}

/-- The two users of a mail. -/
def users (x : Mail U M) : Sym2 U := s(x.sender, x.receiver)

variable [DecidableEq U]

/-- The mail is added to the mailbox of its users. -/
def deliver (b : Sym2 U → List M) (x : Mail U M) : Sym2 U → List M :=
  fun e => if x.users = e then b e ++ [x.content] else b e

variable {b : Sym2 U → List M} {x : Mail U M} {e : Sym2 U}

theorem mem_deliver {m : M} : m ∈ deliver b x e ↔ m ∈ b e ∨ x.users = e ∧ x.content = m := by
  by_cases he : x.users = e
  · simp [deliver, he, eq_comm]
  · simp [deliver, he]

/-- A mail that is new to its mailbox is there once. -/
theorem nodup_deliver (hb : (b e).Nodup) (hx : x.content ∉ b e) : (deliver b x e).Nodup := by
  unfold deliver
  split_ifs
  · refine List.nodup_append.mpr ⟨hb, List.nodup_singleton _, fun m hm m' hm' heq => hx ?_⟩
    rwa [← List.mem_singleton.mp hm', ← heq]
  · exact hb

end Mail
