import LibKern.BitopsSource
import Mathlib.Data.Nat.Size

namespace LibKern.Bitmap

/-!
# Bit scans are exact

`__ffs` and `fls` narrow the position of the lowest and of the highest set bit
down by halving the width of the part of the word where it must be.  The scans
over an array return the position of the lowest set bit from an offset on, and
the size of the array if there is none.
-/

open Program

section LowestBit

variable {word : BitVec 64}

/-- The lowest set bit is within this width after skipping clear bits. -/
private structure Lowest
    (word : BitVec 64)
    (width : Nat)
    (current : Nat × BitVec 64) : Prop where
  shifted : current.2 = word >>> current.1
  below : ∀ index < current.1, word.getLsbD index = false
  inside : ∃ index < width, current.2.getLsbD index = true

/-- A test against a mask of the lowest bits. -/
theorem and_eq_zero_iff
    {width shift : Nat}
    {value mask : BitVec width}
    (lowest : ∀ index < width, mask.getLsbD index = decide (index < shift)) :
    value &&& mask = 0 ↔ ∀ index < shift, value.getLsbD index = false := by
  constructor
  · intro isZero index bound
    by_cases inside : index < width
    · have cleared := congrArg (fun bits => bits.getLsbD index) isZero
      simpa [lowest index inside, bound] using cleared
    · exact BitVec.getLsbD_of_ge value index (by omega)
  · intro cleared
    apply BitVec.eq_of_getLsbD_eq
    intro index inside
    by_cases bound : index < shift
    · simp [cleared index bound]
    · simp [lowest index inside, bound]

/-- One test of `__ffs` halves the width. -/
private theorem Lowest.step
    {shift : Nat}
    {mask : BitVec 64}
    {current : Nat × BitVec 64}
    (lowest : Lowest word (shift + shift) current)
    (isMask : ∀ index < 64, mask.getLsbD index = decide (index < shift)) :
    Lowest word shift (ffsStep mask shift current) := by
  obtain ⟨shifted, below, ⟨index, bound, isSet⟩⟩ := lowest
  unfold ffsStep
  split
  · rename_i isZero
    have cleared := (and_eq_zero_iff isMask).mp isZero
    have notBelow : shift ≤ index := by
      by_contra small
      rw [cleared index (by omega)] at isSet
      cases isSet
    refine ⟨?_, ?_, index - shift, by omega, ?_⟩
    · rw [shifted, BitVec.shiftRight_add]
    · intro other otherBound
      by_cases low : other < current.1
      · exact below other low
      · have clearedOther := cleared (other - current.1) (by omega)
        rw [shifted, BitVec.getLsbD_ushiftRight] at clearedOther
        rwa [Nat.add_sub_cancel' (by omega)] at clearedOther
    · rw [BitVec.getLsbD_ushiftRight, Nat.add_sub_cancel' notBelow]
      exact isSet
  · rename_i notZero
    refine ⟨shifted, below, ?_⟩
    by_contra none
    apply notZero
    rw [and_eq_zero_iff isMask]
    intro other otherBound
    by_contra isSet'
    exact none ⟨other, otherBound, by simpa using isSet'⟩

/-- `__ffs` returns the position of the lowest set bit. -/
theorem ffs_spec (nonzero : word ≠ 0) :
    ffs word < 64 ∧ word.getLsbD (ffs word) = true ∧
      ∀ index < ffs word, word.getLsbD index = false := by
  have start : Lowest word 64 (0, word) := by
    refine ⟨by simp, by simp, ?_⟩
    by_contra none
    apply nonzero
    apply BitVec.eq_of_getLsbD_eq
    intro index inside
    by_contra isSet
    exact none ⟨index, inside, by simpa using isSet⟩
  have in32 : Lowest word 32 (ffsStep 0xffffffff 32 (0, word)) :=
    start.step (by decide)
  have in16 := Lowest.step in32 (by decide : ∀ index < 64,
    (0xffff : BitVec 64).getLsbD index = decide (index < 16))
  have in8 := Lowest.step in16 (by decide : ∀ index < 64,
    (0xff : BitVec 64).getLsbD index = decide (index < 8))
  have in4 := Lowest.step in8 (by decide : ∀ index < 64,
    (0xf : BitVec 64).getLsbD index = decide (index < 4))
  have in2 := Lowest.step in4 (by decide : ∀ index < 64,
    (0x3 : BitVec 64).getLsbD index = decide (index < 2))
  obtain ⟨shifted, below, ⟨index, bound, isSet⟩⟩ :=
    Lowest.step in2 (by decide : ∀ index < 64,
      (0x1 : BitVec 64).getLsbD index = decide (index < 1))
  obtain rfl : index = 0 := by omega
  rw [shifted, BitVec.getLsbD_ushiftRight, Nat.add_zero] at isSet
  exact ⟨BitVec.lt_of_getLsbD isSet, isSet, below⟩

end LowestBit

section HighestBit

variable {x : BitVec 32}

/-- The highest set bit is within this width at the top. -/
private structure Highest
    (x : BitVec 32)
    (width : Nat)
    (current : BitVec 32 × Nat) : Prop where
  bounded : width ≤ current.2 ∧ current.2 ≤ 32
  shifted : current.1.toNat = x.toNat * 2 ^ (32 - current.2)
  below : x.toNat < 2 ^ current.2
  above : 2 ^ (current.2 - width) ≤ x.toNat

/-- A test against a mask of the highest bits. -/
theorem and_highMask_eq_zero_iff
    {width cut : Nat}
    {value mask : BitVec width}
    (highest :
      ∀ index < width, mask.getLsbD index = decide (cut ≤ index)) :
    value &&& mask = 0 ↔ value.toNat < 2 ^ cut := by
  constructor
  · intro isZero
    apply Nat.lt_pow_two_of_testBit
    intro index bound
    by_cases inside : index < width
    · have isClear : value.getLsbD index = false := by
        have cleared := congrArg (fun bits => bits.getLsbD index) isZero
        simpa [highest index inside, bound] using cleared
      exact isClear
    · exact BitVec.getLsbD_of_ge value index (by omega)
  · intro small
    apply BitVec.eq_of_getLsbD_eq
    intro index inside
    by_cases bound : cut ≤ index
    · have cleared : value.getLsbD index = false :=
        Nat.testBit_lt_two_pow
          (small.trans_le (Nat.pow_le_pow_right (by omega) bound))
      simp [cleared]
    · simp [highest index inside, bound]

/-- One test of `fls` halves the width. -/
private theorem Highest.step
    {shift : Nat}
    {mask : BitVec 32}
    {current : BitVec 32 × Nat}
    (highest : Highest x (shift + shift) current)
    (isMask :
      ∀ index < 32, mask.getLsbD index = decide (32 - shift ≤ index)) :
    Highest x shift (flsStep mask shift current) := by
  obtain ⟨⟨enough, atMost⟩, shifted, below, above⟩ := highest
  have scaled :
      current.1.toNat < 2 ^ (32 - shift) ↔
        x.toNat < 2 ^ (current.2 - shift) := by
    rw [shifted]
    have split :
        2 ^ (32 - shift) =
          2 ^ (current.2 - shift) * 2 ^ (32 - current.2) := by
      rw [← Nat.pow_add]
      congr 1
      omega
    rw [split]
    exact Nat.mul_lt_mul_right (Nat.two_pow_pos _)
  unfold flsStep
  split
  · rename_i isZero
    have small := (and_highMask_eq_zero_iff isMask).mp isZero
    refine ⟨⟨by simp only; omega, by simp only; omega⟩, ?_,
      scaled.mp small, ?_⟩
    · simp only [BitVec.toNat_shiftLeft, Nat.shiftLeft_eq]
      have exact :
          current.1.toNat * 2 ^ shift < 2 ^ 32 := by
        calc
          current.1.toNat * 2 ^ shift <
              2 ^ (32 - shift) * 2 ^ shift :=
            Nat.mul_lt_mul_of_pos_right small (Nat.two_pow_pos _)
          _ = 2 ^ 32 := by
            rw [← Nat.pow_add, Nat.sub_add_cancel (by omega)]
      rw [Nat.mod_eq_of_lt exact, shifted, Nat.mul_assoc, ← Nat.pow_add]
      congr 2
      omega
    · have same : current.2 - shift - shift =
          current.2 - (shift + shift) := by
        omega
      simpa [same] using above
  · rename_i notZero
    have large :=
      (and_highMask_eq_zero_iff isMask).not.mp notZero
    rw [scaled, not_lt] at large
    exact ⟨⟨by omega, atMost⟩, shifted, below, large⟩

/-- `fls` returns the number of bits that are needed for a value. -/
theorem fls_eq_size (x : BitVec 32) : fls x = Nat.size x.toNat := by
  unfold fls
  split
  · rename_i isZero
    simp [isZero]
  · rename_i nonzero
    have positive : 0 < x.toNat := by
      rw [Nat.pos_iff_ne_zero]
      intro isZero
      apply nonzero
      exact BitVec.eq_of_toNat_eq isZero
    have start : Highest x 32 (x, 32) :=
      ⟨⟨le_rfl, le_rfl⟩, by simp, x.isLt, by
        simpa [Nat.one_le_iff_ne_zero] using positive.ne'⟩
    have in16 : Highest x 16 (flsStep 0xffff0000 16 (x, 32)) :=
      start.step (by decide)
    have in8 := Highest.step in16 (by decide : ∀ index < 32,
      (0xff000000 : BitVec 32).getLsbD index = decide (32 - 8 ≤ index))
    have in4 := Highest.step in8 (by decide : ∀ index < 32,
      (0xf0000000 : BitVec 32).getLsbD index = decide (32 - 4 ≤ index))
    have in2 := Highest.step in4 (by decide : ∀ index < 32,
      (0xc0000000 : BitVec 32).getLsbD index = decide (32 - 2 ≤ index))
    obtain ⟨⟨enough, -⟩, -, below, above⟩ :=
      Highest.step in2 (by decide : ∀ index < 32,
        (0x80000000 : BitVec 32).getLsbD index =
          decide (32 - 1 ≤ index))
    apply le_antisymm
    · exact Nat.le_of_pred_lt (Nat.lt_size.mpr above)
    · exact Nat.size_le.mpr below

end HighestBit

section SingleBit

variable {memory : CMemory} {addr : Int}

/-- The mask of a single bit. -/
theorem getLsbD_singleBit
    {position index : Nat}
    (bound : position < 64) :
    ((1 : BitVec 64) <<< position).getLsbD index =
      decide (index = position) := by
  have isPower : (1 : BitVec 64) <<< position = .twoPow 64 position :=
    (BitVec.twoPow_eq 64 position).symm
  rw [isPower, BitVec.getLsbD_twoPow]
  by_cases same : index = position
  · simp [same, bound]
  · simp [same, Ne.symm same]

/-- A word that is tested against the mask of a single bit. -/
theorem and_singleBit_ne_zero_iff
    {n : BitVec 64}
    {bit : Nat}
    (inside : bit < 64) :
    n &&& ((1 : BitVec 64) <<< bit) ≠ 0 ↔ n.getLsbD bit = true := by
  constructor
  · intro nonzero
    by_contra isClear
    apply nonzero
    apply BitVec.eq_of_getLsbD_eq
    intro index _
    rw [BitVec.getLsbD_and, getLsbD_singleBit inside]
    by_cases same : index = bit
    · simpa [same] using isClear
    · simp [same]
  · intro isSet isZero
    have cleared :
        (n &&& ((1 : BitVec 64) <<< bit)).getLsbD bit = false := by
      rw [isZero]
      simp
    rw [BitVec.getLsbD_and, getLsbD_singleBit inside, isSet] at cleared
    simp at cleared

/-- `set_bit` sets one bit, also of an array that overlaps. -/
theorem ensures_setBit_overlap
    {nr count : Nat}
    (mapped : memory.longs.Mapped addr count)
    (inside : nr / 64 < count) :
    (setBit nr addr).Ensures memory fun _ after =>
      after.chars = memory.chars ∧
        memory.longs.SameOutside after.longs addr count ∧
        (∀ base length,
          memory.longs.Mapped base length →
          after.longs.Mapped base length) ∧
        ∀ base index,
          after.longs.bit base index =
            (memory.longs.bit base index ||
              decide
                (base + (index / 64 : Nat) = addr + (nr / 64 : Nat) ∧
                  index % 64 = nr % 64)) := by
  obtain ⟨word, atWord⟩ := mapped (nr / 64) inside
  rw [setBit]
  simp only [ensures_bind, ensures_loadLong, ensures_storeLong, atWord,
    Option.some.injEq, exists_eq_left', exists_eq', true_and]
  refine ⟨.write inside _, fun base length isMapped =>
    isMapped.write _ _, fun base index => ?_⟩
  by_cases sameWord : base + (index / 64 : Nat) = addr + (nr / 64 : Nat)
  · simp only [Region.bit, sameWord, Region.write_cell_same, atWord,
      Option.getD_some, BitVec.getLsbD_or, true_and]
    rw [getLsbD_singleBit (by omega)]
  · simp only [Region.bit, sameWord, false_and, decide_false,
      Bool.or_false]
    rw [Region.write_cell_of_ne _ sameWord]

/-- `set_bit` sets one bit. -/
theorem ensures_setBit
    {nr count : Nat}
    (mapped : memory.longs.Mapped addr count)
    (inside : nr / 64 < count) :
    (setBit nr addr).Ensures memory fun _ after =>
      after.chars = memory.chars ∧
        after.longs.Mapped addr count ∧
        ∀ index,
          after.longs.bit addr index =
            (memory.longs.bit addr index || decide (index = nr)) := by
  refine (ensures_setBit_overlap mapped inside).weaken ?_
  intro _ after result
  obtain ⟨sameChars, -, stillMapped, isBit⟩ := result
  refine ⟨sameChars, stillMapped addr count mapped, fun index => ?_⟩
  rw [isBit addr index]
  congr 2
  exact propext ⟨fun _ => by omega, fun _ => by omega⟩

end SingleBit

section Scan

variable {memory : CMemory} {addr : Int} {size offset : Nat}

/-- The lowest set bit from an offset on, or the size if there is none. -/
structure FirstSet
    (longs : Region (BitVec 64))
    (addr : Int)
    (size offset result : Nat) : Prop where
  atMost : result ≤ size
  clear :
    ∀ index, offset ≤ index → index < result →
      longs.bit addr index = false
  found : result < size → offset ≤ result ∧ longs.bit addr result = true

/-- What is found is determined by the bits. -/
theorem FirstSet.unique
    {longs : Region (BitVec 64)}
    {size offset result other : Nat}
    (one : FirstSet longs addr size offset result)
    (another : FirstSet longs addr size offset other) :
    result = other := by
  have notLess
      {result other : Nat}
      (one : FirstSet longs addr size offset result)
      (another : FirstSet longs addr size offset other) :
      ¬result < other := by
    intro isLess
    obtain ⟨above, isSet⟩ := one.found (isLess.trans_le another.atMost)
    rw [another.clear result above isLess] at isSet
    exact absurd isSet (by simp)
  have atMost := notLess one another
  have atLeast := notLess another one
  omega

/-- A word that can be accessed. -/
theorem lt_bitsToLongs
    {word size : Nat}
    (inside : word * 64 < size) :
    word < bitsToLongs size := by
  simp only [bitsToLongs]
  omega

/-- A masked word with a set bit ends the scan. -/
private theorem firstSet_of_word
    {longs : Region (BitVec 64)}
    {word : Nat}
    {value tmp : BitVec 64}
    (atWord : longs.cell (addr + word) = some value)
    (masked :
      ∀ index < 64,
        tmp.getLsbD index =
          (decide (offset ≤ word * 64 + index ∧ word * 64 + index < size) &&
            value.getLsbD index))
    (skipped :
      ∀ index, offset ≤ index → index < word * 64 →
        longs.bit addr index = false)
    (nonzero : tmp ≠ 0) :
    FirstSet longs addr size offset (word * 64 + ffs tmp) := by
  obtain ⟨inWord, isSet, below⟩ := ffs_spec nonzero
  have atBit
      {index : Nat}
      (bound : index < 64) :
      longs.bit addr (word * 64 + index) = value.getLsbD index := by
    rw [Region.bit_of_cell atWord (by omega)]
    congr 1
    omega
  rw [masked _ inWord, Bool.and_eq_true, decide_eq_true_eq] at isSet
  obtain ⟨⟨fromOffset, inside⟩, isSet⟩ := isSet
  refine ⟨inside.le, ?_, fun _ => ⟨fromOffset, ?_⟩⟩
  · intro index above before
    by_cases inEarlier : index < word * 64
    · exact skipped index above inEarlier
    · obtain ⟨position, rfl⟩ := Nat.exists_eq_add_of_le
        (Nat.le_of_not_lt inEarlier)
      have isClear := below position (by omega)
      rw [masked position (by omega)] at isClear
      rw [atBit (by omega)]
      simpa [above, before.trans inside] using isClear
  · rw [atBit inWord]
    exact isSet

/-- A masked word without a set bit is skipped. -/
private theorem clear_of_word
    {longs : Region (BitVec 64)}
    {word : Nat}
    {value tmp : BitVec 64}
    (atWord : longs.cell (addr + word) = some value)
    (masked :
      ∀ index < 64,
        tmp.getLsbD index =
          (decide (offset ≤ word * 64 + index ∧ word * 64 + index < size) &&
            value.getLsbD index))
    (skipped :
      ∀ index, offset ≤ index → index < word * 64 →
        longs.bit addr index = false)
    (isZero : tmp = 0) :
    ∀ index, offset ≤ index → index < (word + 1) * 64 → index < size →
      longs.bit addr index = false := by
  intro index above before inside
  by_cases inEarlier : index < word * 64
  · exact skipped index above inEarlier
  · obtain ⟨position, rfl⟩ := Nat.exists_eq_add_of_le
      (Nat.le_of_not_lt inEarlier)
    have isClear := masked position (by omega)
    rw [isZero] at isClear
    rw [Region.bit_of_cell atWord (by omega)]
    have same : (word * 64 + position) % 64 = position := by
      omega
    rw [same]
    simpa [above, inside] using isClear.symm

/-- The last word of a scan, of which only some bits count. -/
private theorem firstSet_foundFirst
    {longs : Region (BitVec 64)}
    {word : Nat}
    {value tmp : BitVec 64}
    (atWord : longs.cell (addr + word) = some value)
    (partly : word * 64 < size)
    (last : size < (word + 1) * 64)
    (masked :
      ∀ index < 64,
        tmp.getLsbD index =
          (decide (offset ≤ word * 64 + index) && value.getLsbD index))
    (skipped :
      ∀ index, offset ≤ index → index < word * 64 →
        longs.bit addr index = false) :
    FirstSet longs addr size offset
      (foundFirst tmp (word * 64) (size - word * 64)) := by
  have narrowed :
      ∀ index < 64,
        (tmp &&& (BitVec.allOnes 64 >>>
            (64 - (size - word * 64)))).getLsbD index =
          (decide (offset ≤ word * 64 + index ∧ word * 64 + index < size) &&
            value.getLsbD index) := by
    intro index inWord
    have bound :
        64 - (size - word * 64) + index < 64 ↔
          word * 64 + index < size := by
      omega
    simp only [BitVec.getLsbD_and, masked index inWord,
      BitVec.getLsbD_ushiftRight, BitVec.getLsbD_allOnes, bound,
      Bool.decide_and]
    cases decide (offset ≤ word * 64 + index) <;>
      cases value.getLsbD index <;>
      simp
  simp only [foundFirst]
  split
  · rename_i isZero
    have cleared := clear_of_word atWord narrowed skipped isZero
    have whole : word * 64 + (size - word * 64) = size := by
      omega
    rw [whole]
    refine ⟨le_rfl, ?_, fun impossible => absurd impossible (by omega)⟩
    intro index above before
    exact cleared index above (by omega) before
  · rename_i nonzero
    exact firstSet_of_word atWord narrowed skipped nonzero

/-- The loop of a scan from a word on. -/
theorem ensures_scanWords
    {word : Nat}
    (mapped : memory.longs.Mapped addr (bitsToLongs size))
    (inside : word * 64 ≤ size)
    (fromOffset : offset ≤ word * 64)
    (skipped :
      ∀ index, offset ≤ index → index < word * 64 →
        memory.longs.bit addr index = false) :
    (loop scanWords
      ⟨addr + word, word * 64, size - word * 64⟩).Ensures memory
        fun result after =>
          after = memory ∧
            FirstSet memory.longs addr size offset result := by
  induction remaining : size - word * 64 using Nat.strong_induction_on
    generalizing word with
  | h remaining inductionHypothesis =>
      subst remaining
      rw [ensures_loop]
      by_cases whole : 64 ≤ size - word * 64
      · have someWords : wholeWords (size - word * 64) ≠ 0 := by
          simp only [wholeWords]
          omega
        obtain ⟨value, atWord⟩ := mapped word (lt_bitsToLongs (by omega))
        have masked :
            ∀ index < 64,
              value.getLsbD index =
                (decide (offset ≤ word * 64 + index ∧
                    word * 64 + index < size) &&
                  value.getLsbD index) := by
          intro index inWord
          have bounds :
              offset ≤ word * 64 + index ∧ word * 64 + index < size := by
            omega
          simp [bounds]
        simp only [scanWords, someWords, ne_eq, not_false_eq_true,
          ↓reduceIte, ensures_bind, ensures_loadLong, atWord,
          Option.some.injEq, exists_eq_left']
        by_cases isZero : value = 0
        · have cleared := clear_of_word atWord masked skipped isZero
          have following :=
            inductionHypothesis (size - (word + 1) * 64) (by omega)
              (by omega) (by omega)
              (fun index above before =>
                cleared index above before (by omega)) rfl
          simp only [isZero, not_true_eq_false, ↓reduceIte, ensures_pure]
          have advanced :
              (⟨addr + word + 1, word * 64 + 64,
                  size - word * 64 - 64⟩ : ScanVars) =
                ⟨addr + (word + 1 : Nat), (word + 1) * 64,
                  size - (word + 1) * 64⟩ := by
            rw [ScanVars.mk.injEq]
            omega
          rw [advanced]
          exact following
        · simp only [isZero, not_false_eq_true, ↓reduceIte, ensures_pure,
            true_and]
          exact firstSet_of_word atWord masked skipped isZero
      · have noWords : wholeWords (size - word * 64) = 0 := by
          simp only [wholeWords]
          omega
        simp only [scanWords, noWords, ne_eq, not_true_eq_false,
          ↓reduceIte]
        by_cases atEnd : size - word * 64 = 0
        · have isSize : word * 64 = size := by
            omega
          simp only [atEnd, ↓reduceIte, ensures_pure, true_and]
          exact ⟨inside, skipped, fun before =>
            absurd before (by omega)⟩
        · obtain ⟨value, atWord⟩ := mapped word (lt_bitsToLongs (by omega))
          simp only [atEnd, ↓reduceIte, ensures_bind, ensures_loadLong,
            atWord, Option.some.injEq, exists_eq_left', ensures_pure,
            true_and]
          refine firstSet_foundFirst atWord (by omega) (by omega) ?_
            skipped
          intro index inWord
          have bound : offset ≤ word * 64 + index := by
            omega
          simp [bound]

/-- `find_first_bit` returns the lowest set bit. -/
theorem ensures_findFirstBit
    (mapped : memory.longs.Mapped addr (bitsToLongs size)) :
    (findFirstBit addr size).Ensures memory fun result after =>
      after = memory ∧ FirstSet memory.longs addr size 0 result := by
  have scanned :
      (loop scanWords
        ⟨addr + (0 : Nat), 0 * 64, size - 0 * 64⟩).Ensures memory
          fun result after =>
            after = memory ∧
              FirstSet memory.longs addr size 0 result :=
    ensures_scanWords mapped (by omega) (by omega) (by omega)
  simpa [findFirstBit] using scanned

/-- `find_next_bit` returns the lowest set bit from an offset on. -/
theorem ensures_findNextBit
    (mapped : memory.longs.Mapped addr (bitsToLongs size)) :
    (findNextBit addr size offset).Ensures memory fun result after =>
      after = memory ∧
        FirstSet memory.longs addr size offset result := by
  simp only [findNextBit]
  split
  · rename_i beyond
    rw [ensures_pure]
    refine ⟨rfl, le_rfl, ?_, fun before => absurd before (by omega)⟩
    intro index above before
    omega
  · rename_i notBeyond
    have aligned : wholeWords offset = offset / 64 * 64 := rfl
    have nothing :
        ∀ index, offset ≤ index → index < offset / 64 * 64 →
          memory.longs.bit addr index = false := by
      omega
    rw [aligned]
    split
    · rename_i unaligned
      obtain ⟨value, atWord⟩ :=
        mapped (offset / 64) (lt_bitsToLongs (by omega))
      have masked :
          ∀ index < 64,
            (value &&& (BitVec.allOnes 64 <<< (offset % 64))).getLsbD
                index =
              (decide (offset ≤ offset / 64 * 64 + index) &&
                value.getLsbD index) := by
        intro index inWord
        have bound :
            index < offset % 64 ↔ ¬offset ≤ offset / 64 * 64 + index := by
          omega
        have inMask : index - offset % 64 < 64 := by
          omega
        simp only [BitVec.getLsbD_and, BitVec.getLsbD_shiftLeft, inWord,
          decide_true, BitVec.getLsbD_allOnes, inMask, bound,
          Bool.true_and, Bool.and_true, Bool.not_not, decide_not]
        exact Bool.and_comm _ _
      simp only [ensures_bind, ensures_loadLong, atWord,
        Option.some.injEq, exists_eq_left']
      split
      · rw [ensures_pure]
        exact ⟨rfl, firstSet_foundFirst atWord (by omega) (by omega)
          masked nothing⟩
      · rename_i notLast
        have inside
            {index : Nat}
            (inWord : index < 64) :
            offset / 64 * 64 + index < size := by
          omega
        have narrowed :
            ∀ index < 64,
              (value &&& (BitVec.allOnes 64 <<< (offset % 64))).getLsbD
                  index =
                (decide (offset ≤ offset / 64 * 64 + index ∧
                    offset / 64 * 64 + index < size) &&
                  value.getLsbD index) := by
          intro index inWord
          rw [masked index inWord]
          simp [inside inWord]
        split
        · rename_i nonzero
          rw [ensures_pure]
          exact ⟨rfl, firstSet_of_word atWord narrowed nothing nonzero⟩
        · rename_i isZero
          have cleared :=
            clear_of_word atWord narrowed nothing (not_not.mp isZero)
          have following :
              (loop scanWords
                ⟨addr + (offset / 64 + 1 : Nat), (offset / 64 + 1) * 64,
                  size - (offset / 64 + 1) * 64⟩).Ensures memory
                    fun result after =>
                      after = memory ∧
                        FirstSet memory.longs addr size offset result :=
            ensures_scanWords mapped (by omega) (by omega)
              fun index above before =>
                cleared index above before (by omega)
          have advanced :
              (⟨addr + (offset / 64 : Nat) + 1, offset / 64 * 64 + 64,
                  size - offset / 64 * 64 - 64⟩ : ScanVars) =
                ⟨addr + (offset / 64 + 1 : Nat), (offset / 64 + 1) * 64,
                  size - (offset / 64 + 1) * 64⟩ := by
            rw [ScanVars.mk.injEq]
            omega
          rw [advanced]
          exact following
    · rename_i isAligned
      exact ensures_scanWords mapped (by omega) (by omega) nothing

/-- Calling `find_first_bit` with a known result. -/
theorem ensures_findFirstBit_iff
    {result : Nat}
    {post : Nat → CMemory → Prop}
    (mapped : memory.longs.Mapped addr (bitsToLongs size))
    (isFirst : FirstSet memory.longs addr size 0 result) :
    (findFirstBit addr size).Ensures memory post ↔
      post result memory := by
  obtain ⟨value, after, returned, rfl, found⟩ :=
    ensures_findFirstBit mapped
  obtain rfl := found.unique isFirst
  exact returned.ensures_iff

/-- Calling `find_next_bit` with a known result. -/
theorem ensures_findNextBit_iff
    {result : Nat}
    {post : Nat → CMemory → Prop}
    (mapped : memory.longs.Mapped addr (bitsToLongs size))
    (isFirst : FirstSet memory.longs addr size offset result) :
    (findNextBit addr size offset).Ensures memory post ↔
      post result memory := by
  have scanned :
      (findNextBit addr size offset).Ensures memory fun value after =>
        after = memory ∧
          FirstSet memory.longs addr size offset value :=
    ensures_findNextBit mapped
  obtain ⟨value, after, returned, rfl, found⟩ := scanned
  obtain rfl := found.unique isFirst
  exact returned.ensures_iff

end Scan

end LibKern.Bitmap
