import Mathlib.Data.Int.ConditionallyCompleteOrder
import Mathlib.Data.Int.Order.Basic
import Mathlib.Order.ConditionallyCompleteLattice.Indexed

namespace LibKern

/-!
# Three-way comparisons

A comparison function reports its result as the sign of an integer.  It is
consistent when swapping the arguments swaps the sign, when the negative
results are transitive, and when a zero result is an equivalence of keys.  It is
the usual comparison of an order when a negative result means smaller.
-/

variable {κ : Type}

/-- A consistent three-way comparison. -/
structure ThreeWay (cmp : κ → κ → Int) : Prop where
  antisymm : ∀ first second, cmp first second < 0 ↔ 0 < cmp second first
  trans :
    ∀ {first second third},
      cmp first second < 0 →
      cmp second third < 0 →
      cmp first third < 0
  equivalence : Equivalence fun first second => cmp first second = 0

namespace ThreeWay

variable {cmp : κ → κ → Int} (consistent : ThreeWay cmp)
variable {first second third : κ}

include consistent

/-- An equal key on the left does not affect a negative result. -/
theorem neg_of_zero_of_neg
    (same : cmp first second = 0)
    (below : cmp second third < 0) :
    cmp first third < 0 := by
  have back : cmp second first = 0 := consistent.equivalence.symm same
  rcases Int.lt_trichotomy (cmp first third) 0 with
    negative | zero | positive
  · exact negative
  · have equal : cmp second third = 0 :=
      consistent.equivalence.trans back zero
    omega
  · have below' : cmp second first < 0 :=
      consistent.trans below ((consistent.antisymm _ _).mpr positive)
    omega

/-- An equal key on the right does not affect a negative result. -/
theorem neg_of_neg_of_zero
    (below : cmp first second < 0)
    (same : cmp second third = 0) :
    cmp first third < 0 := by
  have back : cmp third second = 0 := consistent.equivalence.symm same
  rcases Int.lt_trichotomy (cmp first third) 0 with
    negative | zero | positive
  · exact negative
  · have equal : cmp first second = 0 :=
      consistent.equivalence.trans zero back
    omega
  · have below' : cmp third second < 0 :=
      consistent.trans ((consistent.antisymm _ _).mpr positive) below
    omega

/-- The positive results are transitive as well. -/
theorem pos_trans
    (above : 0 < cmp first second)
    (above' : 0 < cmp second third) :
    0 < cmp first third := by
  rw [← consistent.antisymm] at above above' ⊢
  exact consistent.trans above' above

/-- An equal key on the left does not affect a positive result. -/
theorem pos_of_zero_of_pos
    (same : cmp first second = 0)
    (above : 0 < cmp second third) :
    0 < cmp first third := by
  rw [← consistent.antisymm] at above ⊢
  exact consistent.neg_of_neg_of_zero above
    (consistent.equivalence.symm same)

/-- An equal key on the right does not affect a positive result. -/
theorem pos_of_pos_of_zero
    (above : 0 < cmp first second)
    (same : cmp second third = 0) :
    0 < cmp first third := by
  rw [← consistent.antisymm] at above ⊢
  exact consistent.neg_of_zero_of_neg
    (consistent.equivalence.symm same) above

/-- The results that are not negative are transitive. -/
theorem nonneg_trans
    (above : 0 ≤ cmp first second)
    (above' : 0 ≤ cmp second third) :
    0 ≤ cmp first third := by
  rcases Int.lt_or_eq_of_le above with positive | zero
  · rcases Int.lt_or_eq_of_le above' with positive' | zero'
    · exact Int.le_of_lt (consistent.pos_trans positive positive')
    · exact Int.le_of_lt
        (consistent.pos_of_pos_of_zero positive zero'.symm)
  · rcases Int.lt_or_eq_of_le above' with positive' | zero'
    · exact Int.le_of_lt
        (consistent.pos_of_zero_of_pos zero.symm positive')
    · exact Int.le_of_eq
        (consistent.equivalence.trans zero.symm zero'.symm).symm

end ThreeWay

/-- The result is negative, zero, or positive as in `strcmp`. -/
structure UsualComparison
    [Preorder κ]
    (cmp : κ → κ → Int) : Prop where
  neg_iff : ∀ first second, cmp first second < 0 ↔ first < second
  zero_iff :
    ∀ first second,
      cmp first second = 0 ↔ first ≤ second ∧ second ≤ first
  pos_iff : ∀ first second, 0 < cmp first second ↔ second < first

namespace UsualComparison

variable [Preorder κ] {cmp : κ → κ → Int} (usual : UsualComparison cmp)

include usual

/-- A usual comparison is consistent. -/
theorem threeWay : ThreeWay cmp where
  antisymm first second :=
    (usual.neg_iff first second).trans (usual.pos_iff second first).symm
  trans := by
    intro first second third below below'
    rw [usual.neg_iff] at below below' ⊢
    exact lt_trans below below'
  equivalence :=
    { refl := fun first => (usual.zero_iff first first).mpr ⟨le_rfl, le_rfl⟩
      symm := by
        intro first second same
        rw [usual.zero_iff] at same ⊢
        exact same.symm
      trans := by
        intro first second third same same'
        rw [usual.zero_iff] at same same' ⊢
        exact ⟨le_trans same.1 same'.1, le_trans same'.2 same.2⟩ }

/-- A result that is not negative. -/
theorem nonneg_iff
    (first second : κ) :
    0 ≤ cmp first second ↔ second ≤ first := by
  constructor
  · intro nonneg
    rcases Int.lt_or_eq_of_le nonneg with positive | zero
    · exact le_of_lt ((usual.pos_iff _ _).mp positive)
    · exact ((usual.zero_iff _ _).mp zero.symm).2
  · intro above
    by_contra negative
    exact ((usual.neg_iff _ _).mp (Int.not_le.mp negative)).not_ge above

/-- Any two keys can be compared. -/
theorem le_of_not_lt
    {first second : κ}
    (notBelow : ¬first < second) :
    second ≤ first := by
  rw [← usual.neg_iff, Int.not_lt] at notBelow
  exact (usual.nonneg_iff first second).mp notBelow

end UsualComparison

/-- The difference of two numbers is a consistent comparison. -/
theorem threeWay_sub :
    ThreeWay fun first second : Int => first - second where
  antisymm := by
    intro first second
    omega
  trans := by
    intro first second third below below'
    omega
  equivalence :=
    { refl := by
        intro first
        omega
      symm := by
        intro first second same
        omega
      trans := by
        intro first second third same same'
        omega }

/-- The difference of two numbers is their usual comparison. -/
theorem usualComparison_sub :
    UsualComparison fun first second : Int => first - second where
  neg_iff := by
    intro first second
    omega
  zero_iff := by
    intro first second
    omega
  pos_iff := by
    intro first second
    omega

end LibKern
