import LibKern.BitScan
import Mathlib.Data.Finset.Max

namespace LibKern.Bitmap

/-!
# `find_last_bit` and the last set bit

`find_last_bit` goes down to the last word with a set bit.  It passes this word
to `fls`, which counts positions from one and has an argument of 32 bits.  The
result is the position of the last set bit only in a special case.
-/

open Program

variable {memory : CMemory} {addr : Int} {size : Nat}

/-- The greatest one of these positions, or the size if there is none. -/
def GreatestOr (positions : Set Nat) (size result : Nat) : Prop :=
  IsGreatest positions result ∨ positions = ∅ ∧ result = size

/-- The positions of the set bits of an array. -/
def setBelow
    (longs : Region (BitVec 64))
    (addr : Int)
    (size : Nat) : Set Nat :=
  {index | index < size ∧ longs.bit addr index = true}

/-- The last set bit of a word. -/
structure LastInWord (word : BitVec 64) (position : Nat) : Prop where
  isSet : word.getLsbD position = true
  above : ∀ index, position < index → word.getLsbD index = false

/-- A nonzero word has a last set bit. -/
theorem exists_lastInWord
    {word : BitVec 64}
    (nonzero : word ≠ 0) :
    ∃ position < 64, LastInWord word position := by
  let positions :=
    (Finset.range 64).filter fun index => word.getLsbD index = true
  have nonempty : positions.Nonempty := by
    obtain ⟨inWord, isSet, -⟩ := ffs_spec nonzero
    exact ⟨ffs word, by simp [positions, inWord, isSet]⟩
  have member := positions.max'_mem nonempty
  obtain ⟨inWord, isSet⟩ := Finset.mem_filter.mp member
  refine ⟨positions.max' nonempty, Finset.mem_range.mp inWord, isSet, ?_⟩
  intro index above
  by_contra isSet
  have bit : word.getLsbD index = true := by
    simpa using isSet
  have isMember : index ∈ positions :=
    Finset.mem_filter.mpr
      ⟨Finset.mem_range.mpr (BitVec.lt_of_getLsbD bit), bit⟩
  exact absurd (positions.le_max' index isMember) (by omega)

/-- The result of `fls` is the last set bit of a word in a special case. -/
theorem fls_setWidth_eq_iff
    {word : BitVec 64}
    {position : Nat}
    (last : LastInWord word position) :
    fls (word.setWidth 32) = position ↔
      position = 32 ∧ word.getLsbD 31 = true := by
  have isLow
      {index : Nat}
      (low : index < 32) :
      (word.setWidth 32).toNat.testBit index = word.getLsbD index := by
    rw [BitVec.testBit_toNat, BitVec.getLsbD_setWidth,
      decide_eq_true low, Bool.true_and]
  have atMost : fls (word.setWidth 32) ≤ 32 := by
    rw [fls_eq_size, Nat.size_le]
    exact (word.setWidth 32).isLt
  rw [fls_eq_size] at atMost ⊢
  constructor
  · intro same
    have high : ¬position < 32 := by
      intro low
      have isSet := last.isSet
      rw [← isLow low] at isSet
      have less := Nat.lt_size.mpr (Nat.ge_two_pow_of_testBit isSet)
      omega
    obtain rfl : position = 32 := by
      omega
    have large : 2 ^ 31 ≤ (word.setWidth 32).toNat := by
      rw [← Nat.lt_size]
      omega
    refine ⟨rfl, ?_⟩
    rw [← isLow (by decide)]
    exact Nat.testBit_of_two_pow_le_and_two_pow_add_one_gt large
      (word.setWidth 32).isLt
  · intro special
    obtain ⟨rfl, isSet⟩ := special
    rw [← isLow (by decide)] at isSet
    have less := Nat.lt_size.mpr (Nat.ge_two_pow_of_testBit isSet)
    omega

/-- What `find_last_bit` returns. -/
inductive LastFound
    (longs : Region (BitVec 64))
    (addr : Int)
    (size : Nat) : Nat → Prop where
  | none :
      setBelow longs addr size = ∅ →
      LastFound longs addr size size
  | word
      {last : Nat}
      (tmp : BitVec 64) :
      IsGreatest (setBelow longs addr size) last →
      LastInWord tmp (last % 64) →
      (∀ index < last % 64,
        tmp.getLsbD index = longs.bit addr (last / 64 * 64 + index)) →
      LastFound longs addr size (foundLast (last / 64) tmp)

/-- The last word with a set bit. -/
private theorem lastFound_of_word
    {longs : Region (BitVec 64)}
    {word : Nat}
    {value tmp : BitVec 64}
    (atWord : longs.cell (addr + word) = some value)
    (masked :
      ∀ index < 64,
        tmp.getLsbD index =
          (decide (word * 64 + index < size) && value.getLsbD index))
    (skipped :
      ∀ index, (word + 1) * 64 ≤ index → index < size →
        longs.bit addr index = false)
    (nonzero : tmp ≠ 0) :
    LastFound longs addr size (foundLast word tmp) := by
  obtain ⟨position, inWord, last⟩ := exists_lastInWord nonzero
  have quotient : (word * 64 + position) / 64 = word := by
    omega
  have remainder : (word * 64 + position) % 64 = position := by
    omega
  have atBit
      {index : Nat}
      (bound : index < 64) :
      longs.bit addr (word * 64 + index) = value.getLsbD index := by
    rw [Region.bit_of_cell atWord (by omega)]
    congr 1
    omega
  have isSet := last.isSet
  rw [masked position inWord, Bool.and_eq_true, decide_eq_true_eq] at isSet
  have greatest :
      IsGreatest (setBelow longs addr size) (word * 64 + position) := by
    refine ⟨⟨isSet.1, by rw [atBit inWord, isSet.2]⟩, ?_⟩
    intro index member
    obtain ⟨inside, isBit⟩ := member
    by_contra above
    by_cases later : (word + 1) * 64 ≤ index
    · rw [skipped index later inside] at isBit
      exact absurd isBit (by simp)
    · obtain ⟨place, rfl⟩ := Nat.exists_eq_add_of_le
        (by omega : word * 64 ≤ index)
      have isClear := last.above place (by omega)
      rw [masked place (by omega), decide_eq_true inside, Bool.true_and,
        ← atBit (by omega), isBit] at isClear
      exact absurd isClear (by simp)
  have found :=
    LastFound.word tmp greatest (by rwa [remainder]) ?_
  · rwa [quotient] at found
  · rw [remainder, quotient]
    intro index below
    rw [masked index (by omega), atBit (by omega),
      decide_eq_true (by omega), Bool.true_and]

/-- A word without a set bit is skipped. -/
private theorem clear_of_lastWord
    {longs : Region (BitVec 64)}
    {word : Nat}
    {value tmp : BitVec 64}
    (atWord : longs.cell (addr + word) = some value)
    (masked :
      ∀ index < 64,
        tmp.getLsbD index =
          (decide (word * 64 + index < size) && value.getLsbD index))
    (skipped :
      ∀ index, (word + 1) * 64 ≤ index → index < size →
        longs.bit addr index = false)
    (isZero : tmp = 0) :
    ∀ index, word * 64 ≤ index → index < size →
      longs.bit addr index = false := by
  intro index above inside
  by_cases later : (word + 1) * 64 ≤ index
  · exact skipped index later inside
  · obtain ⟨place, rfl⟩ := Nat.exists_eq_add_of_le above
    have isClear := masked place (by omega)
    rw [isZero, decide_eq_true inside, Bool.true_and] at isClear
    have same : (word * 64 + place) % 64 = place := by
      omega
    rw [Region.bit_of_cell atWord (by omega), same, ← isClear]
    simp

/-- The loop of `find_last_bit` over the words below a word. -/
theorem ensures_lastWord
    {words : Nat}
    (mapped : memory.longs.Mapped addr (bitsToLongs size))
    (inside : words * 64 ≤ size)
    (skipped :
      ∀ index, words * 64 ≤ index → index < size →
        memory.longs.bit addr index = false) :
    (loop (lastWord addr size) words).Ensures memory fun result after =>
      after = memory ∧ LastFound memory.longs addr size result := by
  induction words with
  | zero =>
      rw [ensures_loop, lastWord, if_neg (by simp), ensures_pure]
      refine ⟨rfl, .none ?_⟩
      rw [Set.eq_empty_iff_forall_notMem]
      intro index member
      have isClear := skipped index (by omega) member.1
      rw [member.2] at isClear
      exact absurd isClear (by simp)
  | succ words inductionHypothesis =>
      obtain ⟨value, atWord⟩ := mapped words (lt_bitsToLongs (by omega))
      have masked :
          ∀ index < 64,
            value.getLsbD index =
              (decide (words * 64 + index < size) &&
                value.getLsbD index) := by
        intro index inWord
        rw [decide_eq_true (by omega), Bool.true_and]
      rw [ensures_loop, lastWord, if_pos (by simp)]
      simp only [Nat.add_sub_cancel, ensures_bind, ensures_loadLong, atWord,
        Option.some.injEq, exists_eq_left']
      by_cases isZero : value = 0
      · rw [if_neg (by simpa using isZero), ensures_pure]
        exact inductionHypothesis (by omega)
          (clear_of_lastWord atWord masked skipped isZero)
      · rw [if_pos isZero, ensures_pure]
        exact ⟨rfl, lastFound_of_word atWord masked skipped isZero⟩

/-- `find_last_bit` passes the last word with a set bit to `fls`. -/
theorem ensures_findLastBit
    (mapped : memory.longs.Mapped addr (bitsToLongs size)) :
    (findLastBit addr size).Ensures memory fun result after =>
      after = memory ∧ LastFound memory.longs addr size result := by
  simp only [findLastBit]
  split
  · rename_i partly
    obtain ⟨value, atWord⟩ :=
      mapped (size / 64) (lt_bitsToLongs (by omega))
    have masked :
        ∀ index < 64,
          (value &&& (BitVec.allOnes 64 >>>
              (64 - size % 64))).getLsbD index =
            (decide (size / 64 * 64 + index < size) &&
              value.getLsbD index) := by
      intro index inWord
      have bound :
          64 - size % 64 + index < 64 ↔
            size / 64 * 64 + index < size := by
        omega
      simp only [BitVec.getLsbD_and, BitVec.getLsbD_ushiftRight,
        BitVec.getLsbD_allOnes, bound]
      exact Bool.and_comm _ _
    have skipped :
        ∀ index, (size / 64 + 1) * 64 ≤ index → index < size →
          memory.longs.bit addr index = false := by
      omega
    simp only [ensures_bind, ensures_loadLong, atWord, Option.some.injEq,
      exists_eq_left']
    split
    · rename_i nonzero
      rw [ensures_pure]
      exact ⟨rfl, lastFound_of_word atWord masked skipped nonzero⟩
    · rename_i isZero
      exact ensures_lastWord mapped (by omega)
        (clear_of_lastWord atWord masked skipped (not_not.mp isZero))
  · rename_i whole
    exact ensures_lastWord mapped (by omega) (by omega)

/-- The last set bit is at position 32 of its word, above another set bit. -/
def LastAboveHalf
    (longs : Region (BitVec 64))
    (addr : Int)
    (size : Nat) : Prop :=
  ∃ last,
    IsGreatest (setBelow longs addr size) last ∧ last % 64 = 32 ∧
      longs.bit addr (last - 1) = true

/-- When a result is the last set bit. -/
theorem LastFound.greatestOr_iff
    {longs : Region (BitVec 64)}
    {result : Nat}
    (found : LastFound longs addr size result) :
    GreatestOr (setBelow longs addr size) size result ↔
      setBelow longs addr size = ∅ ∨ LastAboveHalf longs addr size := by
  cases found with
  | none isEmpty =>
      simp [GreatestOr, isEmpty]
  | @word last tmp greatest inWord isBit =>
      have nonempty : setBelow longs addr size ≠ ∅ :=
        Set.nonempty_iff_ne_empty.mp ⟨last, greatest.1⟩
      have isLast :
          IsGreatest (setBelow longs addr size)
              (foundLast (last / 64) tmp) ↔
            fls (tmp.setWidth 32) = last % 64 := by
        constructor
        · intro isGreatest
          have same := isGreatest.unique greatest
          rw [foundLast] at same
          omega
        · intro same
          have isSame : foundLast (last / 64) tmp = last := by
            rw [foundLast, same]
            omega
          rwa [isSame]
      simp only [GreatestOr, nonempty, false_and, or_false, false_or,
        isLast, fls_setWidth_eq_iff inWord]
      have below :
          last % 64 = 32 →
            tmp.getLsbD 31 = longs.bit addr (last - 1) := by
        intro half
        rw [isBit 31 (by omega)]
        congr 1
        omega
      constructor
      · intro special
        rw [below special.1] at special
        exact ⟨last, greatest, special⟩
      · intro aboveHalf
        obtain ⟨other, isGreatest, half, isSet⟩ := aboveHalf
        obtain rfl := isGreatest.unique greatest
        exact ⟨half, by rw [below half, isSet]⟩

/--
`find_last_bit` returns the last set bit, or the size if there is none, exactly
if no bit is set or the last one is at position 32 of its word and follows
another set bit.
-/
theorem findLastBit_isLast_iff
    (mapped : memory.longs.Mapped addr (bitsToLongs size)) :
    ((findLastBit addr size).Ensures memory fun result after =>
      after = memory ∧
        GreatestOr (setBelow memory.longs addr size) size result) ↔
      setBelow memory.longs addr size = ∅ ∨
        LastAboveHalf memory.longs addr size := by
  obtain ⟨result, after, returned, rfl, found⟩ :=
    ensures_findLastBit mapped
  rw [returned.ensures_iff, found.greatestOr_iff]
  simp

/-- A word with two set bits on both sides of its middle. -/
def middleBits : CMemory where
  longs := .ofList [0x180000000]
  chars := .ofList []

/-- `find_last_bit` finds the last one of the two bits. -/
theorem findLastBit_isLast_of_sample :
    (findLastBit 0 64).Ensures middleBits fun result after =>
      after = middleBits ∧
        GreatestOr (setBelow middleBits.longs 0 64) 64 result := by
  refine (findLastBit_isLast_iff (Region.mapped_ofList (by decide))).mpr
    (.inr ⟨32, ⟨⟨by decide, by decide⟩, ?_⟩, rfl, by decide⟩)
  have clear :
      ∀ index < 64, 32 < index →
        middleBits.longs.bit 0 index = false := by
    decide
  intro index member
  by_contra above
  have isClear := clear index member.1 (by omega)
  rw [member.2] at isClear
  exact absurd isClear (by simp)

/-- A word whose lowest bit is set. -/
def lowestBit : CMemory where
  longs := .ofList [1]
  chars := .ofList []

/-- `find_last_bit` returns one for a word whose lowest bit is set. -/
theorem findLastBit_not_last :
    ¬(findLastBit 0 64).Ensures lowestBit fun result _ =>
      GreatestOr (setBelow lowestBit.longs 0 64) 64 result := by
  have returnsOne :
      (findLastBit 0 64).Ensures lowestBit fun result _ => result = 1 :=
    .of_exec 2 (by decide)
  intro isLast
  obtain ⟨result, after, returned, rfl⟩ := returnsOne
  rcases isLast.of_returns returned with greatest | ⟨-, same⟩
  · exact absurd greatest.1.2 (by decide)
  · exact absurd same (by decide)

end LibKern.Bitmap
