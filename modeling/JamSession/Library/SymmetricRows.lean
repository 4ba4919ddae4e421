import Mathlib.Logic.Function.Basic

/-! A relation that is stored one row at a time, and when it stays symmetric as rows are
replaced. Row `k` of `R` is the predicate `R k`. Replacing one row keeps the relation
symmetric exactly when the new row says the same as the old one off the diagonal;
replacing two rows leaves one more freedom, the pair of the two rows themselves, on which
the new rows only have to agree with each other. -/

namespace SymmetricRows

variable {α : Type*} [DecidableEq α]

/-- Both sides of every pair are listed, or neither is. -/
def Mutual (R : α → α → Prop) : Prop := ∀ a b, R a b ↔ R b a

/-- `R` with the rows `k` replaced by `p`. -/
def setRow (R : α → α → Prop) (k : α) (p : α → Prop) : α → α → Prop := Function.update R k p

@[simp] theorem setRow_self (R : α → α → Prop) (k : α) (p : α → Prop) : setRow R k p k = p := by
  simp [setRow]

theorem setRow_of_ne (R : α → α → Prop) {k a : α} (p : α → Prop) (h : a ≠ k) :
    setRow R k p a = R a := by
  simp [setRow, h]

theorem setRow_eq_self (R : α → α → Prop) {k : α} {p : α → Prop} (h : p = R k) :
    setRow R k p = R := by
  simp [setRow, h]

theorem setRow_setRow (R : α → α → Prop) (k : α) (p q : α → Prop) :
    setRow (setRow R k q) k p = setRow R k p := by
  simp [setRow]

/-- One replaced row. -/
theorem mutual_setRow_iff {R : α → α → Prop} (hR : Mutual R) (k : α) (p : α → Prop) :
    Mutual (setRow R k p) ↔ ∀ b, b ≠ k → (p b ↔ R k b) := by
  constructor
  · intro h b hb
    have hkb := h k b
    rw [setRow_self, setRow_of_ne R p hb] at hkb
    exact hkb.trans (hR b k)
  · intro h a b
    by_cases ha : a = k <;> by_cases hb : b = k
    · subst ha hb
      exact Iff.rfl
    · subst ha
      rw [setRow_self, setRow_of_ne R p hb]
      exact (h b hb).trans (hR a b)
    · subst hb
      rw [setRow_self, setRow_of_ne R p ha]
      exact (hR a b).trans (h a ha).symm
    · rw [setRow_of_ne R p ha, setRow_of_ne R p hb]
      exact hR a b

/-- Two replaced rows, of different elements. -/
theorem mutual_setRow₂_iff {R : α → α → Prop} (hR : Mutual R) {j k : α} (hjk : j ≠ k)
    (q p : α → Prop) : Mutual (setRow (setRow R j q) k p) ↔
      (∀ b, b ≠ j → b ≠ k → (q b ↔ R j b)) ∧ (∀ b, b ≠ j → b ≠ k → (p b ↔ R k b)) ∧
        (q k ↔ p j) := by
  have hj : setRow (setRow R j q) k p j = q := by rw [setRow_of_ne _ p hjk, setRow_self]
  have hk : setRow (setRow R j q) k p k = p := setRow_self _ k p
  have ho : ∀ b, b ≠ j → b ≠ k → setRow (setRow R j q) k p b = R b := fun b hbj hbk => by
    rw [setRow_of_ne _ p hbk, setRow_of_ne R q hbj]
  constructor
  · intro h
    refine ⟨fun b hbj hbk => ?_, fun b hbj hbk => ?_, ?_⟩
    · have hjb := h j b
      rw [hj, ho b hbj hbk] at hjb
      exact hjb.trans (hR b j)
    · have hkb := h k b
      rw [hk, ho b hbj hbk] at hkb
      exact hkb.trans (hR b k)
    · have := h j k
      rwa [hj, hk] at this
  · rintro ⟨hq, hp, hqp⟩
    -- it is enough to look at the pairs in one order
    have key : ∀ a b, a ≠ b → a = j ∨ a = k →
        (setRow (setRow R j q) k p a b ↔ setRow (setRow R j q) k p b a) := by
      rintro a b hab (rfl | rfl)
      · rw [hj]
        by_cases hbk : b = k
        · rw [hbk, hk]; exact hqp
        · rw [ho b hab.symm hbk]
          exact (hq b hab.symm hbk).trans (hR a b)
      · rw [hk]
        by_cases hbj : b = j
        · rw [hbj, hj]; exact hqp.symm
        · rw [ho b hbj hab.symm]
          exact (hp b hbj hab.symm).trans (hR a b)
    intro a b
    by_cases hab : a = b
    · rw [hab]
    · by_cases ha : a = j ∨ a = k
      · exact key a b hab ha
      · by_cases hb : b = j ∨ b = k
        · exact (key b a (Ne.symm hab) hb).symm
        · rw [not_or] at ha hb
          rw [ho a ha.1 ha.2, ho b hb.1 hb.2]
          exact hR a b

end SymmetricRows
