import LibKern.BitopsSource
import LibKern.FieldSums

namespace LibKern.Bitmap

/-!
# Counting the ones of a word

`hweight32` and `hweight64` regard a word as a row of fields of one bit.  Each
step adds neighbouring fields, first into fields of twice the width, and then
into the lowest byte.  No field overflows, so the last byte is the sum of all
bits.
-/

open Fields

/-- The positions of the ones of a word. -/
def ones {size : Nat} (word : BitVec size) : Finset Nat :=
  (Finset.range size).filter fun index => word.getLsbD index = true

/-- A word that consists of fields with a bound. -/
structure IsRow
    {size : Nat}
    (word : BitVec size)
    (width : Nat)
    (fields : List Nat)
    (bound : Nat) : Prop where
  isNumber : word.toNat = number width fields
  fills : width * fields.length = size
  small : ∀ field ∈ fields, field ≤ bound

namespace IsRow

variable {size width bound count : Nat}
variable {word mask : BitVec size}
variable {fields : List Nat}

/-- Fields that fit give a number that fits into a word. -/
private theorem number_lt_size
    (fits : ∀ field ∈ fields, field < 2 ^ width)
    (fills : width * fields.length = size) :
    number width fields < 2 ^ size := by
  rw [← fills]
  exact number_lt fits

/-- The bits of a word are fields. -/
theorem bits (word : BitVec size) :
    IsRow word 1
      ((List.range size).map fun index => (word.getLsbD index).toNat)
      1 := by
  refine ⟨?_, by simp, ?_⟩
  · have isNumber := number_bits word.toNat size
    rw [Nat.mod_eq_of_lt word.isLt] at isNumber
    exact isNumber.symm
  · intro field member
    obtain ⟨index, -, rfl⟩ := List.mem_map.mp member
    exact Bool.toNat_le _

/-- The fields have room for their values. -/
theorem fits
    (row : IsRow word width fields bound)
    (room : bound < 2 ^ width) :
    ∀ field ∈ fields, field < 2 ^ width := by
  intro field member
  have atMost := row.small field member
  omega

/-- The pairs of fields fill the word. -/
private theorem fills_paired
    (row : IsRow word width fields bound)
    (even : fields.length = 2 * count) :
    (width + width) * (paired fields).length = size := by
  rw [← row.fills, length_paired, even, ← Nat.two_mul,
    show (2 * count + 1) / 2 = count by omega, Nat.mul_comm 2 width,
    Nat.mul_assoc]

/-- `word - ((word >> 1) & mask)`. -/
theorem subPairs
    (row : IsRow word 1 fields 1)
    (even : fields.length = 2 * count)
    (isMask : mask.toNat = alternating 1 count) :
    IsRow (word - ((word >>> 1) &&& mask)) 2 (paired fields) 2 := by
  have below : (word >>> 1) &&& mask ≤ word := by
    rw [BitVec.le_def, BitVec.toNat_and, BitVec.toNat_ushiftRight]
    exact Nat.and_le_left.trans (Nat.shiftRight_le _ _)
  refine ⟨?_, row.fills_paired even, le_of_mem_paired row.small⟩
  rw [BitVec.toNat_sub_of_le below, BitVec.toNat_and,
    BitVec.toNat_ushiftRight, row.isNumber, isMask,
    sub_alternating (row.fits (by decide)) even.le]

/-- `(word & mask) + ((word >> width) & mask)`. -/
theorem addPairs
    (row : IsRow word width fields bound)
    (even : fields.length = 2 * count)
    (isMask : mask.toNat = alternating width count)
    (room : bound < 2 ^ width)
    (pairRoom : bound + bound < 2 ^ (width + width)) :
    IsRow ((word &&& mask) + ((word >>> width) &&& mask))
      (width + width) (paired fields) (bound + bound) := by
  have fills := row.fills_paired even
  have small := le_of_mem_paired row.small
  have isSum :
      (word &&& mask).toNat + ((word >>> width) &&& mask).toNat =
        number (width + width) (paired fields) := by
    rw [BitVec.toNat_and, BitVec.toNat_and, BitVec.toNat_ushiftRight,
      row.isNumber, isMask, add_alternating (row.fits room) even.le]
  refine ⟨?_, fills, small⟩
  rw [BitVec.toNat_add_of_lt, isSum]
  rw [isSum]
  apply number_lt_size _ fills
  intro field member
  exact (small field member).trans_lt pairRoom

/-- `word + (word >> shift)` for a shift by whole fields. -/
theorem addShifted
    (row : IsRow word width fields bound)
    (room : bound + bound < 2 ^ width)
    (shift skipped : Nat)
    (isShift : shift = width * skipped) :
    IsRow (word + (word >>> shift)) width
      (added fields (fields.drop skipped)) (bound + bound) := by
  have fits := row.fits (by omega)
  have length :
      (added fields (fields.drop skipped)).length = fields.length := by
    rw [length_added, List.length_drop]
    omega
  have small :
      ∀ field ∈ added fields (fields.drop skipped),
        field ≤ bound + bound := by
    apply le_of_mem_added row.small
    intro field member
    exact row.small field (List.mem_of_mem_drop member)
  have fills :
      width * (added fields (fields.drop skipped)).length = size := by
    rw [length, row.fills]
  have isSum :
      word.toNat + (word >>> shift).toNat =
        number width (added fields (fields.drop skipped)) := by
    rw [BitVec.toNat_ushiftRight, row.isNumber, isShift,
      number_shiftRight_mul fits, number_added]
  refine ⟨?_, fills, small⟩
  rw [BitVec.toNat_add_of_lt, isSum]
  rw [isSum]
  apply number_lt_size _ fills
  intro field member
  exact (small field member).trans_lt room

/-- `(word + (word >> width)) & mask`. -/
theorem maskSums
    (row : IsRow word width fields bound)
    (even : fields.length = 2 * count)
    (isMask : mask.toNat = alternating width count)
    (room : bound + bound < 2 ^ width) :
    IsRow ((word + (word >>> width)) &&& mask) (width + width)
      (paired fields) (bound + bound) := by
  have isSum :
      (word + (word >>> width)).toNat =
        number width fields + (number width fields >>> width) := by
    rw [(row.addShifted room width 1 (Nat.mul_one width).symm).isNumber,
      number_added, number_shiftRight (row.fits (by omega)),
      List.drop_one]
  refine ⟨?_, row.fills_paired even, le_of_mem_paired row.small⟩
  rw [BitVec.toNat_and, isSum, isMask,
    and_alternating_add row.small room even.le]

/-- `word & 0xff`. -/
theorem lowest
    {field : Nat}
    (row : IsRow word 8 (field :: fields) bound)
    (room : bound < 2 ^ 8)
    (isMask : mask.toNat = 2 ^ 8 - 1) :
    (word &&& mask).toNat = field := by
  rw [BitVec.toNat_and, row.isNumber, isMask, number_cons,
    Nat.and_two_pow_sub_one_eq_mod, Nat.add_mul_mod_self_left,
    Nat.mod_eq_of_lt (row.fits room field (by simp))]

end IsRow

/-- The ones below a position, as a sum of bits. -/
theorem sum_bits_below
    (bit : Nat → Bool)
    (count : Nat) :
    ((List.range count).map fun index => (bit index).toNat).sum =
      ((Finset.range count).filter fun index => bit index = true).card := by
  induction count with
  | zero =>
      simp
  | succ count inductionHypothesis =>
      rw [List.range_succ, List.map_append, List.sum_append,
        inductionHypothesis, Finset.range_add_one, Finset.filter_insert]
      cases isBit : bit count <;> simp [isBit]

section Bytes

variable {size : Nat}

/-- The first three lines of `hweight32` and `hweight64`. -/
def byteCounts (w mask1 mask2 mask4 : BitVec size) : BitVec size :=
  let res := w - ((w >>> 1) &&& mask1)
  let res := (res &&& mask2) + ((res >>> 2) &&& mask2)
  (res + (res >>> 4)) &&& mask4

/-- The first three lines count the ones of each byte. -/
theorem isRow_byteCounts
    (count : Nat)
    (w mask1 mask2 mask4 : BitVec size)
    (bytes : size = 8 * count)
    (isMask1 : mask1.toNat = alternating 1 (4 * count))
    (isMask2 : mask2.toNat = alternating 2 (2 * count))
    (isMask4 : mask4.toNat = alternating 4 count) :
    ∃ fields,
      fields.length = count ∧ fields.sum = (ones w).card ∧
        IsRow (byteCounts w mask1 mask2 mask4) 8 fields 8 := by
  have row := IsRow.bits w
  have isSum := sum_bits_below (fun index => w.getLsbD index) size
  have length :
      ((List.range size).map fun index =>
        (w.getLsbD index).toNat).length = size := by
    simp
  generalize ((List.range size).map fun index =>
    (w.getLsbD index).toNat) = fields at row isSum length
  have even : fields.length = 2 * (4 * count) := by
    omega
  have even2 : (paired fields).length = 2 * (2 * count) := by
    rw [length_paired]
    omega
  have even4 : (paired (paired fields)).length = 2 * count := by
    rw [length_paired]
    omega
  have row2 := row.subPairs even isMask1
  have row4 := row2.addPairs even2 isMask2 (by decide) (by decide)
  have row8 := row4.maskSums even4 isMask4 (by decide)
  refine ⟨paired (paired (paired fields)), ?_, ?_, row8⟩
  · rw [length_paired]
    omega
  · rw [sum_paired, sum_paired, sum_paired, isSum, ones]

end Bytes

/-- `hweight32` counts the ones of a word. -/
theorem toNat_hweight32 (w : BitVec 32) :
    (hweight32 w).toNat = (ones w).card := by
  obtain ⟨fields, length, isSum, row⟩ :=
    isRow_byteCounts 4 w 0x55555555 0x33333333 0x0f0f0f0f rfl
      (by decide) (by decide) (by decide)
  obtain ⟨a, b, c, d, rfl⟩ := List.length_eq_four.mp length
  have row16 := row.addShifted (by decide) 8 1 rfl
  have row32 := row16.addShifted (by decide) 16 2 rfl
  rw [← isSum]
  refine (row32.lowest (by decide) rfl).trans ?_
  simp only [List.sum_cons, List.sum_nil]
  omega

/-- `hweight64` counts the ones of a word. -/
theorem toNat_hweight64 (w : BitVec 64) :
    (hweight64 w).toNat = (ones w).card := by
  obtain ⟨fields, length, isSum, row⟩ :=
    isRow_byteCounts 8 w 0x5555555555555555 0x3333333333333333
      0x0f0f0f0f0f0f0f0f rfl (by decide) (by decide) (by decide)
  have row16 := row.addShifted (by decide) 8 1 rfl
  have row32 := row16.addShifted (by decide) 16 2 rfl
  have row64 := row32.addShifted (by decide) 32 4 rfl
  rw [← isSum]
  match fields, length with
  | [a, b, c, d, e, f, g, h], _ =>
      refine (row64.lowest (by decide) rfl).trans ?_
      simp only [List.sum_cons, List.sum_nil]
      omega

end LibKern.Bitmap
