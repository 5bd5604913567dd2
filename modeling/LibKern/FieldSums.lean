import Mathlib.Algebra.BigOperators.Group.Finset.Basic
import Mathlib.Data.Nat.Digits.Lemmas

namespace LibKern.Fields

/-!
# Numbers made of fields

A number whose digits in a base `2 ^ width` are all small is a row of fields of
this width.  Masks, shifts and sums of such numbers work on all fields at once,
as long as no field overflows.  Every step that adds neighbouring fields keeps
the sum of the fields.
-/

/-- The number with these fields, the lowest one first. -/
def number (width : Nat) (fields : List Nat) : Nat :=
  Nat.ofDigits (2 ^ width) fields

/-- The first field and every second one after it. -/
def evens : List Nat → List Nat
  | [] => []
  | [last] => [last]
  | low :: _ :: rest => low :: evens rest

/-- The sums of two neighbouring fields. -/
def paired : List Nat → List Nat
  | [] => []
  | [last] => [last]
  | low :: high :: rest => (low + high) :: paired rest

/-- The sums of the fields of two numbers. -/
def added : List Nat → List Nat → List Nat
  | [], others => others
  | fields, [] => fields
  | field :: fields, other :: others =>
      (field + other) :: added fields others

section Lists

variable {fields : List Nat} {bound : Nat}

/-- Adding neighbouring fields keeps the sum. -/
theorem sum_paired (fields : List Nat) :
    (paired fields).sum = fields.sum := by
  induction fields using paired.induct with
  | case1 =>
      rfl
  | case2 last =>
      rfl
  | case3 low high rest inductionHypothesis =>
      simp only [paired, List.sum_cons, inductionHypothesis]
      omega

theorem length_paired (fields : List Nat) :
    (paired fields).length = (fields.length + 1) / 2 := by
  induction fields using paired.induct with
  | case1 =>
      rfl
  | case2 last =>
      simp [paired]
  | case3 low high rest inductionHypothesis =>
      simp only [paired, List.length_cons, inductionHypothesis]
      omega

/-- The sums are at most twice as large as the fields. -/
theorem le_of_mem_paired
    (small : ∀ field ∈ fields, field ≤ bound) :
    ∀ field ∈ paired fields, field ≤ bound + bound := by
  induction fields using paired.induct with
  | case1 =>
      simp [paired]
  | case2 last =>
      intro field member
      have atMost := small field member
      omega
  | case3 low high rest inductionHypothesis =>
      simp only [List.mem_cons, forall_eq_or_imp] at small
      obtain ⟨lowSmall, highSmall, restSmall⟩ := small
      simp only [paired, List.mem_cons, forall_eq_or_imp]
      exact ⟨by omega, inductionHypothesis restSmall⟩

theorem le_of_mem_added
    {others : List Nat}
    (small : ∀ field ∈ fields, field ≤ bound)
    (othersSmall : ∀ field ∈ others, field ≤ bound) :
    ∀ field ∈ added fields others, field ≤ bound + bound := by
  induction fields, others using added.induct with
  | case1 others =>
      intro field member
      have atMost := othersSmall field (by simpa [added] using member)
      omega
  | case2 fields =>
      intro field member
      have atMost := small field (by simpa [added] using member)
      omega
  | case3 field fields other others inductionHypothesis =>
      simp only [List.mem_cons, forall_eq_or_imp] at small othersSmall
      simp only [added, List.mem_cons, forall_eq_or_imp]
      exact ⟨by omega, inductionHypothesis small.2 othersSmall.2⟩

theorem length_added (fields others : List Nat) :
    (added fields others).length =
      max fields.length others.length := by
  induction fields, others using added.induct with
  | case1 others =>
      simp [added]
  | case2 fields =>
      simp [added]
  | case3 field fields other others inductionHypothesis =>
      simp only [added, List.length_cons, inductionHypothesis]
      omega

/-- Every second sum of neighbours is the sum of a pair. -/
theorem evens_added_tail (fields : List Nat) :
    evens (added fields fields.tail) = paired fields := by
  induction fields using paired.induct with
  | case1 =>
      rfl
  | case2 last =>
      rfl
  | case3 low high rest inductionHypothesis =>
      cases rest with
      | nil =>
          rfl
      | cons next rest =>
          simp only [List.tail_cons] at inductionHypothesis
          simp [added, evens, paired, inductionHypothesis]

end Lists

section Numbers

variable {width bound count : Nat} {fields : List Nat}

@[simp] theorem number_nil : number width [] = 0 := by
  simp [number]

theorem number_cons (field : Nat) (fields : List Nat) :
    number width (field :: fields) =
      field + 2 ^ width * number width fields := by
  simp [number, Nat.ofDigits_cons]

/-- Fields that fit give a number of the total width. -/
theorem number_lt
    (fits : ∀ field ∈ fields, field < 2 ^ width) :
    number width fields < 2 ^ (width * fields.length) := by
  induction fields with
  | nil =>
      simp
  | cons field rest inductionHypothesis =>
      simp only [List.mem_cons, forall_eq_or_imp] at fits
      have restFits := inductionHypothesis fits.2
      rw [number_cons, List.length_cons, Nat.mul_succ, Nat.add_comm _ width,
        Nat.pow_add]
      calc
        field + 2 ^ width * number width rest <
            2 ^ width * (number width rest + 1) := by
          rw [Nat.mul_add, Nat.mul_one]
          omega
        _ ≤ 2 ^ width * 2 ^ (width * rest.length) :=
          Nat.mul_le_mul_left _ restFits

/-- A shift by one field drops the lowest field. -/
theorem number_shiftRight
    (fits : ∀ field ∈ fields, field < 2 ^ width) :
    number width fields >>> width = number width fields.tail := by
  cases fields with
  | nil =>
      simp
  | cons field rest =>
      rw [Nat.shiftRight_eq_div_pow, number_cons,
        Nat.add_mul_div_left _ _ (Nat.two_pow_pos width),
        Nat.div_eq_of_lt (fits field (by simp)), Nat.zero_add,
        List.tail_cons]

/-- A shift by several fields. -/
theorem number_shiftRight_mul
    (fits : ∀ field ∈ fields, field < 2 ^ width)
    (count : Nat) :
    number width fields >>> (width * count) =
      number width (fields.drop count) := by
  induction count with
  | zero =>
      simp
  | succ count inductionHypothesis =>
      rw [Nat.mul_succ, Nat.shiftRight_add, inductionHypothesis,
        number_shiftRight fun field member =>
          fits field (List.mem_of_mem_drop member),
        List.tail_drop]

/-- Fields of twice the width, every second one of which is empty. -/
theorem number_evens_add (fields : List Nat) :
    number (width + width) (evens fields) +
        number (width + width) (evens fields.tail) =
      number (width + width) (paired fields) := by
  induction fields using paired.induct with
  | case1 =>
      simp [evens, paired]
  | case2 last =>
      simp [evens, paired]
  | case3 low high rest inductionHypothesis =>
      cases rest with
      | nil =>
          simp [evens, paired, number_cons]
      | cons next rest =>
          simp only [List.tail_cons, evens, paired, number_cons] at *
          rw [← inductionHypothesis, Nat.mul_add]
          omega

/-- A number and the fields in its even and in its odd places. -/
theorem number_eq_evens (width : Nat) (fields : List Nat) :
    number width fields =
      number (width + width) (evens fields) +
        2 ^ width * number (width + width) (evens fields.tail) := by
  induction fields using paired.induct with
  | case1 =>
      simp [evens]
  | case2 last =>
      simp [evens, number_cons]
  | case3 low high rest inductionHypothesis =>
      cases rest with
      | nil =>
          simp [evens, number_cons]
      | cons next rest =>
          simp only [List.tail_cons, evens, number_cons] at *
          rw [inductionHypothesis, Nat.pow_add]
          ring

/-- The sum of two numbers is the sum of their fields. -/
theorem number_added (fields others : List Nat) :
    number width (added fields others) =
      number width fields + number width others := by
  induction fields, others using added.induct with
  | case1 others =>
      simp [added]
  | case2 fields =>
      simp [added]
  | case3 field fields other others inductionHypothesis =>
      simp only [added, number_cons, inductionHypothesis]
      ring

/-- A conjunction works on the lowest bits and on the other ones. -/
theorem and_split
    {low mask high highMask : Nat}
    (lowFits : low < 2 ^ width)
    (maskFits : mask < 2 ^ width) :
    (low + 2 ^ width * high) &&& (mask + 2 ^ width * highMask) =
      (low &&& mask) + 2 ^ width * (high &&& highMask) := by
  have bothFit : low &&& mask < 2 ^ width :=
    Nat.and_lt_two_pow low maskFits
  rw [Nat.add_comm low, Nat.add_comm mask, Nat.add_comm (low &&& mask)]
  apply Nat.eq_of_testBit_eq
  intro index
  rw [Nat.testBit_and, Nat.testBit_two_pow_mul_add _ lowFits,
    Nat.testBit_two_pow_mul_add _ maskFits,
    Nat.testBit_two_pow_mul_add _ bothFit]
  split
  · rw [Nat.testBit_and]
  · rw [Nat.testBit_and]

/-- A mask that keeps every second field. -/
def alternating (width count : Nat) : Nat :=
  number (width + width) (List.replicate count (2 ^ width - 1))

/-- The mask keeps the lower one of two fields. -/
private theorem pair_and
    {low high : Nat}
    (rest mask : Nat)
    (lowFits : low < 2 ^ width)
    (highFits : high < 2 ^ width) :
    (low + 2 ^ width * (high + 2 ^ width * rest)) &&&
        (2 ^ width - 1 + 2 ^ (width + width) * mask) =
      low + 2 ^ (width + width) * (rest &&& mask) := by
  have pairFits : low + 2 ^ width * high < 2 ^ (width + width) := by
    rw [Nat.pow_add]
    calc
      low + 2 ^ width * high < 2 ^ width * (high + 1) := by
        rw [Nat.mul_add, Nat.mul_one]
        omega
      _ ≤ 2 ^ width * 2 ^ width := Nat.mul_le_mul_left _ highFits
  have maskFits : 2 ^ width - 1 < 2 ^ (width + width) := by
    have larger : 2 ^ width ≤ 2 ^ (width + width) :=
      Nat.pow_le_pow_right (by omega) (by omega)
    have positive := Nat.two_pow_pos width
    omega
  have regrouped :
      low + 2 ^ width * (high + 2 ^ width * rest) =
        low + 2 ^ width * high + 2 ^ (width + width) * rest := by
    rw [Nat.pow_add]
    ring
  rw [regrouped, and_split pairFits maskFits,
    Nat.and_two_pow_sub_one_eq_mod, Nat.add_mul_mod_self_left,
    Nat.mod_eq_of_lt lowFits]

/-- The mask keeps every second field. -/
theorem number_and_alternating
    (fits : ∀ field ∈ fields, field < 2 ^ width)
    (enough : fields.length ≤ 2 * count) :
    number width fields &&& alternating width count =
      number (width + width) (evens fields) := by
  induction fields using evens.induct generalizing count with
  | case1 =>
      simp [evens]
  | case2 last =>
      obtain _ | count := count
      · simp at enough
      · have kept :=
          pair_and 0 (alternating width count) (fits last (by simp))
            (Nat.two_pow_pos width)
        simpa [evens, alternating, List.replicate_succ, number_cons]
          using kept
  | case3 low high rest inductionHypothesis =>
      simp only [List.mem_cons, forall_eq_or_imp] at fits
      obtain ⟨lowFits, highFits, restFits⟩ := fits
      obtain _ | count := count
      · simp at enough
      · have below :
            number width rest &&& alternating width count =
              number (width + width) (evens rest) := by
          apply inductionHypothesis restFits
          simp only [List.length_cons] at enough
          omega
        rw [alternating, List.replicate_succ, number_cons, number_cons,
          number_cons, evens, number_cons, pair_and _ _ lowFits highFits,
          ← alternating, below]

/-- One step of a parallel sum, with a mask for either half of each pair. -/
theorem add_alternating
    (fits : ∀ field ∈ fields, field < 2 ^ width)
    (enough : fields.length ≤ 2 * count) :
    (number width fields &&& alternating width count) +
        ((number width fields >>> width) &&& alternating width count) =
      number (width + width) (paired fields) := by
  have tailFits : ∀ field ∈ fields.tail, field < 2 ^ width :=
    fun field member => fits field (List.mem_of_mem_tail member)
  have tailLength : fields.tail.length ≤ 2 * count := by
    rw [List.length_tail]
    omega
  rw [number_shiftRight fits, number_and_alternating fits enough,
    number_and_alternating tailFits tailLength, number_evens_add]

/-- One step of a parallel sum over fields of one bit. -/
theorem sub_alternating
    (fits : ∀ field ∈ fields, field < 2 ^ 1)
    (enough : fields.length ≤ 2 * count) :
    number 1 fields -
        ((number 1 fields >>> 1) &&& alternating 1 count) =
      number 2 (paired fields) := by
  have added := add_alternating fits enough
  have tailFits : ∀ field ∈ fields.tail, field < 2 ^ 1 :=
    fun field member => fits field (List.mem_of_mem_tail member)
  have tailLength : fields.tail.length ≤ 2 * count := by
    rw [List.length_tail]
    omega
  have separated := number_eq_evens 1 fields
  rw [number_shiftRight fits, number_and_alternating fits enough,
    number_and_alternating tailFits tailLength] at added
  rw [number_shiftRight fits, number_and_alternating tailFits tailLength]
  change _ = number (1 + 1) (paired fields)
  omega

/-- One step of a parallel sum, where the sums fit into the fields. -/
theorem and_alternating_add
    (small : ∀ field ∈ fields, field ≤ bound)
    (room : bound + bound < 2 ^ width)
    (enough : fields.length ≤ 2 * count) :
    (number width fields + (number width fields >>> width)) &&&
        alternating width count =
      number (width + width) (paired fields) := by
  have fits : ∀ field ∈ fields, field < 2 ^ width := by
    intro field member
    have atMost := small field member
    omega
  have sumsFit :
      ∀ field ∈ added fields fields.tail, field < 2 ^ width := by
    intro field member
    have atMost :=
      le_of_mem_added small
        (fun other tailMember =>
          small other (List.mem_of_mem_tail tailMember))
        field member
    omega
  have sumsLength : (added fields fields.tail).length ≤ 2 * count := by
    rw [length_added, List.length_tail]
    omega
  rw [number_shiftRight fits, ← number_added,
    number_and_alternating sumsFit sumsLength, evens_added_tail]

/-- The lowest bits of a number are fields of one bit. -/
theorem number_bits (value count : Nat) :
    number 1 ((List.range count).map fun index =>
        (value.testBit index).toNat) =
      value % 2 ^ count := by
  induction count with
  | zero =>
      simp [Nat.mod_one]
  | succ count inductionHypothesis =>
      rw [List.range_succ, List.map_append, number, Nat.ofDigits_append,
        ← number, inductionHypothesis, Nat.mod_pow_succ]
      simp [Nat.toNat_testBit]

end Numbers

end LibKern.Fields
