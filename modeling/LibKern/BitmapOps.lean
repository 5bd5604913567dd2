import LibKern.BitmapOpsSource
import LibKern.BitmapShift

namespace LibKern.Bitmap

/-!
# Combining and comparing bitmaps

The operations work on words.  Each of them is specified by the bits: the
operations that have a result bitmap by all bits of its words, and the ones
that return a value by the used bits.
-/

open Program

section Words

variable {word : BitVec 64}

/-- A word is nonzero if one of its bits is set. -/
theorem ne_zero_iff :
    word ≠ 0 ↔ ∃ index < 64, word.getLsbD index = true := by
  constructor
  · intro nonzero
    by_contra! clear
    apply nonzero
    apply BitVec.eq_of_getLsbD_eq
    intro index inside
    simpa using clear index inside
  · intro isSet
    obtain ⟨index, inside, isSet⟩ := isSet
    rintro rfl
    simp at isSet

/-- The mask keeps the used bits of the last word. -/
theorem getLsbD_lastWordMask
    {nbits index : Nat}
    (inside : index < 64) :
    (lastWordMask nbits).getLsbD index =
      decide (nbits % 64 = 0 ∨ index < nbits % 64) := by
  rw [lastWordMask]
  split
  · rename_i partly
    rw [getLsbD_lowMask (by omega)]
    simp [partly]
  · rename_i whole
    rw [BitVec.getLsbD_not]
    simp [inside, not_not.mp whole]

/-- A word of a bitmap without its unused bits. -/
def usedWord
    (longs : Region (BitVec 64))
    (bitmap : Int)
    (bits k : Nat) : BitVec 64 :=
  let word := (longs.cell (bitmap + k)).getD 0
  if k < bits / 64 then word else word &&& lastWordMask bits

theorem getLsbD_usedWord
    {longs : Region (BitVec 64)}
    {bitmap : Int}
    {bits k index : Nat}
    (below : k < bitsToLongs bits)
    (inside : index < 64) :
    (usedWord longs bitmap bits k).getLsbD index =
      (decide (k * 64 + index < bits) &&
        longs.bit bitmap (k * 64 + index)) := by
  have word : (k * 64 + index) / 64 = k := by
    omega
  have position : (k * 64 + index) % 64 = index := by
    omega
  simp only [usedWord, Region.bit, word, position]
  split
  · rename_i whole
    rw [decide_eq_true (by omega), Bool.true_and]
  · rename_i last
    have used :
        (bits % 64 = 0 ∨ index < bits % 64) ↔ k * 64 + index < bits := by
      simp only [bitsToLongs] at below
      omega
    rw [BitVec.getLsbD_and, getLsbD_lastWordMask inside, Bool.and_comm]
    simp only [used]

/-- The used bits determine the words. -/
theorem usedWord_congr
    {longs other : Region (BitVec 64)}
    {bitmap : Int}
    {bits k : Nat}
    (same :
      ∀ index < bits, longs.bit bitmap index = other.bit bitmap index)
    (below : k < bitsToLongs bits) :
    usedWord longs bitmap bits k = usedWord other bitmap bits k := by
  apply BitVec.eq_of_getLsbD_eq
  intro index inside
  rw [getLsbD_usedWord below inside, getLsbD_usedWord below inside]
  by_cases used : k * 64 + index < bits
  · rw [same _ used]
  · simp [used]

end Words

/-- Two arrays of this many words are the same or do not overlap. -/
def SameOrApart (one other : Int) (count : Nat) : Prop :=
  one = other ∨ one + count ≤ other ∨ other + count ≤ one

/-- Only a bitmap was changed, and its words have these bits now. -/
structure Becomes
    (memory : CMemory)
    (dst : Int)
    (bits : Nat)
    (value : Nat → Bool)
    (after : CMemory) : Prop where
  chars : after.chars = memory.chars
  mapped : after.longs.Mapped dst (bitsToLongs bits)
  outside : memory.longs.SameOutside after.longs dst (bitsToLongs bits)
  isValue :
    ∀ index < bitsToLongs bits * 64,
      after.longs.bit dst index = value index

/-- The words of a bitmap have been written up to this one. -/
structure Storing
    (memory : CMemory)
    (dst : Int)
    (count done : Nat)
    (value : Nat → Bool)
    (after : CMemory) : Prop where
  chars : after.chars = memory.chars
  mapped : after.longs.Mapped dst count
  outside : memory.longs.SameOutside after.longs dst done
  isValue : ∀ index < done * 64, after.longs.bit dst index = value index

section Storing

variable {memory before : CMemory}
variable {dst src : Int}
variable {count done bits k : Nat}
variable {value : Nat → Bool}

/-- Nothing has been written yet. -/
theorem Storing.start
    (mapped : memory.longs.Mapped dst count) :
    Storing memory dst count 0 value memory :=
  ⟨rfl, mapped, .refl, by simp⟩

/-- The next word is written. -/
theorem Storing.next
    (storing : Storing memory dst count done value before)
    {word : BitVec 64}
    (isWord :
      ∀ index < 64, word.getLsbD index = value (done * 64 + index)) :
    Storing memory dst count (done + 1) value
      { before with longs := before.longs.write (dst + done) word } := by
  refine ⟨storing.chars, storing.mapped.write _ _, ?_, ?_⟩
  · intro address isOutside
    rw [Region.write_cell_of_ne _ (by omega)]
    exact storing.outside address (by omega)
  · intro index bound
    rw [Region.bit_write]
    split
    · rename_i inWord
      rw [isWord _ (by omega)]
      congr 1
      omega
    · exact storing.isValue index (by omega)

/-- A word of a source that has not been overwritten. -/
theorem Storing.cell_source
    (storing : Storing memory dst count done value before)
    (apart : SameOrApart dst src count)
    (reached : done ≤ k)
    (below : k < count) :
    before.longs.cell (src + k) = memory.longs.cell (src + k) := by
  apply storing.outside
  rcases apart with rfl | apart
  · omega
  · omega

/-- A word of a source that can be read. -/
theorem Storing.exists_source
    (storing : Storing memory dst count done value before)
    (apart : SameOrApart dst src count)
    (mapped : memory.longs.Mapped src count)
    (reached : done ≤ k)
    (below : k < count) :
    ∃ word,
      before.longs.cell (src + k) = some word ∧
        ∀ index < 64,
          word.getLsbD index = memory.longs.bit src (k * 64 + index) := by
  obtain ⟨word, atWord⟩ := mapped k below
  refine ⟨word, (storing.cell_source apart reached below).trans atWord, ?_⟩
  intro index inside
  exact Region.getLsbD_of_cell atWord inside

/-- All words have been written. -/
theorem Storing.becomes
    (storing :
      Storing memory dst (bitsToLongs bits) (bitsToLongs bits) value
        before) :
    Becomes memory dst bits value before :=
  ⟨storing.chars, storing.mapped, storing.outside, storing.isValue⟩

end Storing

section Combine

variable {memory before : CMemory}
variable {dst bitmap1 bitmap2 : Int}
variable {bits : Nat}
variable {op : BitVec 64 → BitVec 64 → BitVec 64}
variable {onBits : Bool → Bool → Bool}

/-- An operation on words works on each of their bits. -/
def Bitwise
    (op : BitVec 64 → BitVec 64 → BitVec 64)
    (onBits : Bool → Bool → Bool) : Prop :=
  ∀ first second : BitVec 64, ∀ index < 64,
    (op first second).getLsbD index =
      onBits (first.getLsbD index) (second.getLsbD index)

/-- The bits of two bitmaps are combined. -/
def combinedBits
    (onBits : Bool → Bool → Bool)
    (longs : Region (BitVec 64))
    (bitmap1 bitmap2 : Int)
    (index : Nat) : Bool :=
  onBits (longs.bit bitmap1 index) (longs.bit bitmap2 index)

/-- Combine two words. -/
theorem ensures_combineWord
    {done : Nat}
    (bitwise : Bitwise op onBits)
    (mapped1 : memory.longs.Mapped bitmap1 (bitsToLongs bits))
    (mapped2 : memory.longs.Mapped bitmap2 (bitsToLongs bits))
    (apart1 : SameOrApart dst bitmap1 (bitsToLongs bits))
    (apart2 : SameOrApart dst bitmap2 (bitsToLongs bits))
    (below : done < bitsToLongs bits)
    (storing :
      Storing memory dst (bitsToLongs bits) done
        (combinedBits onBits memory.longs bitmap1 bitmap2) before) :
    (combineWord dst bitmap1 bitmap2 op done).Ensures before
      fun word after =>
        Storing memory dst (bitsToLongs bits) (done + 1)
            (combinedBits onBits memory.longs bitmap1 bitmap2) after ∧
          ∀ index < 64,
            word.getLsbD index =
              combinedBits onBits memory.longs bitmap1 bitmap2
                (done * 64 + index) := by
  obtain ⟨first, atFirst, isFirst⟩ :=
    storing.exists_source apart1 mapped1 le_rfl below
  obtain ⟨second, atSecond, isSecond⟩ :=
    storing.exists_source apart2 mapped2 le_rfl below
  have isWord :
      ∀ index < 64,
        (op first second).getLsbD index =
          combinedBits onBits memory.longs bitmap1 bitmap2
            (done * 64 + index) := by
    intro index inside
    rw [bitwise first second index inside, isFirst index inside,
      isSecond index inside, combinedBits]
  simp only [combineWord, bothWords, ensures_bind, ensures_loadLong,
    ensures_pure, ensures_storeLong, atFirst, atSecond, Option.some.injEq,
    exists_eq_left']
  exact ⟨storing.mapped done below, storing.next isWord, isWord⟩

/-- Combining all words. -/
theorem ensures_combineWords
    (bitwise : Bitwise op onBits)
    (mapped : memory.longs.Mapped dst (bitsToLongs bits))
    (mapped1 : memory.longs.Mapped bitmap1 (bitsToLongs bits))
    (mapped2 : memory.longs.Mapped bitmap2 (bitsToLongs bits))
    (apart1 : SameOrApart dst bitmap1 (bitsToLongs bits))
    (apart2 : SameOrApart dst bitmap2 (bitsToLongs bits)) :
    (combineWords dst bitmap1 bitmap2 bits op).Ensures memory fun _ =>
      Becomes memory dst bits
        (combinedBits onBits memory.longs bitmap1 bitmap2) := by
  rw [combineWords]
  refine (ensures_countUp
    (fun done =>
      Storing memory dst (bitsToLongs bits) done
        (combinedBits onBits memory.longs bitmap1 bitmap2))
    (.start mapped) ?_).weaken fun _ after storing => storing.becomes
  intro done below before storing
  rw [ensures_bind]
  refine (ensures_combineWord bitwise mapped1 mapped2 apart1 apart2 below
    storing).weaken ?_
  intro word after result
  exact ensures_pure.mpr result.1

/-- Combining all words, and looking at all bits of the result. -/
theorem ensures_combineAnyWord
    (bitwise : Bitwise op onBits)
    (mapped : memory.longs.Mapped dst (bitsToLongs bits))
    (mapped1 : memory.longs.Mapped bitmap1 (bitsToLongs bits))
    (mapped2 : memory.longs.Mapped bitmap2 (bitsToLongs bits))
    (apart1 : SameOrApart dst bitmap1 (bitsToLongs bits))
    (apart2 : SameOrApart dst bitmap2 (bitsToLongs bits)) :
    (combineAnyWord dst bitmap1 bitmap2 bits op).Ensures memory
      fun result after =>
        Becomes memory dst bits
            (combinedBits onBits memory.longs bitmap1 bitmap2) after ∧
          (result = true ↔
            ∃ index < bitsToLongs bits * 64,
              combinedBits onBits memory.longs bitmap1 bitmap2 index =
                true) := by
  rw [combineAnyWord, ensures_bind]
  refine (ensures_foldUp
    (fun done (result : BitVec 64) after =>
      Storing memory dst (bitsToLongs bits) done
          (combinedBits onBits memory.longs bitmap1 bitmap2) after ∧
        (result ≠ 0 ↔
          ∃ index < done * 64,
            combinedBits onBits memory.longs bitmap1 bitmap2 index =
              true))
    ⟨.start mapped, by simp⟩ ?_).weaken ?_
  · intro done below result before holds
    obtain ⟨storing, isResult⟩ := holds
    rw [ensures_bind]
    refine (ensures_combineWord bitwise mapped1 mapped2 apart1 apart2
      below storing).weaken ?_
    intro word after stored
    obtain ⟨stillStoring, isWord⟩ := stored
    refine ensures_pure.mpr ⟨stillStoring, ?_⟩
    have either :
        result ||| word ≠ 0 ↔ result ≠ 0 ∨ word ≠ 0 := by
      simp only [ne_eq, BitVec.ofNat_eq_ofNat, BitVec.or_eq_zero_iff]
      tauto
    rw [either, isResult, ne_zero_iff]
    constructor
    · intro isSet
      rcases isSet with ⟨index, bound, isSet⟩ | ⟨index, inside, isSet⟩
      · exact ⟨index, by omega, isSet⟩
      · rw [isWord index inside] at isSet
        exact ⟨done * 64 + index, by omega, isSet⟩
    · intro isSet
      obtain ⟨index, bound, isSet⟩ := isSet
      by_cases earlier : index < done * 64
      · exact .inl ⟨index, earlier, isSet⟩
      · refine .inr ⟨index - done * 64, by omega, ?_⟩
        rw [isWord _ (by omega), ← isSet]
        congr 1
        omega
  · intro result after holds
    obtain ⟨storing, isResult⟩ := holds
    rw [ensures_pure, decide_eq_true_iff]
    exact ⟨storing.becomes, isResult⟩

theorem bitwise_and :
    Bitwise (fun first second => first &&& second) and :=
  fun _ _ _ _ => BitVec.getLsbD_and

theorem bitwise_or :
    Bitwise (fun first second => first ||| second) or :=
  fun _ _ _ _ => BitVec.getLsbD_or

theorem bitwise_xor :
    Bitwise (fun first second => first ^^^ second) xor :=
  fun _ _ _ _ => BitVec.getLsbD_xor

theorem bitwise_andnot :
    Bitwise (fun first second => first &&& ~~~second)
      fun first second => first && !second := by
  intro first second index inside
  simp [inside]

end Combine

section Complement

variable {memory : CMemory} {dst src : Int} {bits : Nat}

/-- `__bitmap_complement` also clears the unused bits. -/
theorem ensures_bitmapComplement
    (mapped : memory.longs.Mapped dst (bitsToLongs bits))
    (source : memory.longs.Mapped src (bitsToLongs bits))
    (apart : SameOrApart dst src (bitsToLongs bits)) :
    (bitmapComplement dst src bits).Ensures memory fun _ =>
      Becomes memory dst bits fun index =>
        decide (index < bits) && !memory.longs.bit src index := by
  have size : bits / 64 ≤ bitsToLongs bits := by
    simp only [bitsToLongs]
    omega
  rw [bitmapComplement, ensures_bind]
  refine (ensures_countUp
    (fun done =>
      Storing memory dst (bitsToLongs bits) done fun index =>
        decide (index < bits) && !memory.longs.bit src index)
    (.start mapped) ?_).weaken ?_
  · intro done below before storing
    obtain ⟨word, atWord, isWord⟩ :=
      storing.exists_source apart source le_rfl (by omega)
    simp only [ensures_bind, ensures_loadLong, ensures_storeLong, atWord,
      Option.some.injEq, exists_eq_left']
    refine ⟨storing.mapped done (by omega), storing.next ?_⟩
    intro index inside
    have used : done * 64 + index < bits := by
      omega
    rw [BitVec.getLsbD_not, isWord index inside]
    simp [inside, used]
  · intro _ before storing
    by_cases partly : bits % 64 ≠ 0
    · have last : bits / 64 + 1 = bitsToLongs bits := by
        simp only [bitsToLongs]
        omega
      rw [ensures_onlyIf_of partly]
      obtain ⟨word, atWord, isWord⟩ :=
        storing.exists_source apart source le_rfl (by omega)
      simp only [ensures_bind, ensures_loadLong, ensures_storeLong, atWord,
        Option.some.injEq, exists_eq_left']
      have isLast :
          ∀ index < 64,
            (~~~word &&& lastWordMask bits).getLsbD index =
              (decide (bits / 64 * 64 + index < bits) &&
                !memory.longs.bit src (bits / 64 * 64 + index)) := by
        intro index inside
        have used :
            (bits % 64 = 0 ∨ index < bits % 64) ↔
              bits / 64 * 64 + index < bits := by
          omega
        rw [BitVec.getLsbD_and, getLsbD_lastWordMask inside,
          BitVec.getLsbD_not, isWord index inside]
        simp [inside, used, Bool.and_comm]
      have stored := storing.next isLast
      rw [last] at stored
      exact ⟨storing.mapped _ (by omega), stored.becomes⟩
    · have last : bits / 64 = bitsToLongs bits := by
        simp only [bitsToLongs]
        omega
      rw [ensures_onlyIf_of_not partly]
      rw [last] at storing
      exact storing.becomes

end Complement

section Compare

variable {memory : CMemory}
variable {bitmap bitmap1 bitmap2 : Int}
variable {bits k : Nat}
variable {value : Nat → Bool}

/-- A word that is computed from the memory has these bits. -/
def Reads
    (memory : CMemory)
    (program : Program CMemory (BitVec 64))
    (value : Nat → Bool)
    (k : Nat) : Prop :=
  program.Ensures memory fun word after =>
    after = memory ∧
      ∀ index < 64, word.getLsbD index = value (k * 64 + index)

/-- A search looks at the used bits only. -/
theorem ensures_anyUsedWord
    {test : Nat → Program CMemory Bool}
    {word : Nat → Program CMemory (BitVec 64)}
    (tests :
      ∀ k < bitsToLongs bits,
        (test k).Ensures memory fun found after =>
          after = memory ∧
            (found = true ↔ ∃ index < 64, value (k * 64 + index) = true))
    (words : ∀ k < bitsToLongs bits, Reads memory (word k) value k) :
    (anyUsedWord bits test word).Ensures memory fun found after =>
      after = memory ∧
        (found = true ↔ ∃ index < bits, value index = true) := by
  have size : bits / 64 ≤ bitsToLongs bits := by
    simp only [bitsToLongs]
    omega
  rw [anyUsedWord, ensures_bind]
  refine (ensures_anyUp fun k below => tests k (by omega)).weaken ?_
  intro found between result
  obtain ⟨rfl, isFound⟩ := result
  rw [ensures_ite]
  split
  · rename_i isTrue
    obtain ⟨k, below, index, inside, isSet⟩ := isFound.mp isTrue
    rw [ensures_pure]
    exact ⟨rfl, iff_of_true rfl ⟨k * 64 + index, by omega, isSet⟩⟩
  · rename_i isFalse
    have inLast
        {index : Nat}
        (isSet : value index = true) :
        bits / 64 * 64 ≤ index := by
      by_contra earlier
      refine isFalse (isFound.mpr ⟨index / 64, by omega, index % 64,
        by omega, ?_⟩)
      rwa [Nat.div_add_mod']
    rw [ensures_ite]
    split
    · rename_i partly
      have last : bits / 64 < bitsToLongs bits := by
        simp only [bitsToLongs]
        omega
      rw [ensures_bind]
      refine (words _ last).weaken ?_
      intro word after result
      obtain ⟨rfl, isWord⟩ := result
      rw [ensures_pure, decide_eq_true_iff, ne_zero_iff]
      refine ⟨rfl, ?_⟩
      constructor
      · intro isSet
        obtain ⟨index, inside, isSet⟩ := isSet
        rw [BitVec.getLsbD_and, getLsbD_lastWordMask inside,
          isWord index inside, Bool.and_eq_true, decide_eq_true_iff]
          at isSet
        exact ⟨bits / 64 * 64 + index, by omega, isSet.1⟩
      · intro isSet
        obtain ⟨index, used, isSet⟩ := isSet
        have reached := inLast isSet
        have position :
            bits / 64 * 64 + (index - bits / 64 * 64) = index := by
          omega
        refine ⟨index - bits / 64 * 64, by omega, ?_⟩
        rw [BitVec.getLsbD_and, getLsbD_lastWordMask (by omega),
          isWord _ (by omega), position, isSet, decide_eq_true (by omega)]
        rfl
    · rename_i whole
      rw [ensures_pure]
      refine ⟨rfl, iff_of_false (by simp) ?_⟩
      intro isSet
      obtain ⟨index, used, isSet⟩ := isSet
      have reached := inLast isSet
      omega

/-- A search for a nonzero word. -/
theorem ensures_anyNonzeroWord
    {word : Nat → Program CMemory (BitVec 64)}
    (words : ∀ k < bitsToLongs bits, Reads memory (word k) value k) :
    (anyNonzeroWord bits word).Ensures memory fun found after =>
      after = memory ∧
        (found = true ↔ ∃ index < bits, value index = true) := by
  refine ensures_anyUsedWord ?_ words
  intro k below
  rw [ensures_bind]
  refine (words k below).weaken ?_
  intro word after result
  obtain ⟨rfl, isWord⟩ := result
  rw [ensures_pure, decide_eq_true_iff, ne_zero_iff]
  refine ⟨rfl, ?_⟩
  constructor
  · intro isSet
    obtain ⟨index, inside, isSet⟩ := isSet
    exact ⟨index, inside, by rwa [← isWord index inside]⟩
  · intro isSet
    obtain ⟨index, inside, isSet⟩ := isSet
    exact ⟨index, inside, by rwa [isWord index inside]⟩

/-- A search whose result is negated. -/
theorem ensures_not
    {search : Program CMemory Bool}
    {condition : Prop}
    (searched :
      search.Ensures memory fun found after =>
        after = memory ∧ (found = true ↔ condition)) :
    (do
      let found ← search
      pure !found : Program CMemory Bool).Ensures memory
        fun result after =>
          after = memory ∧ (result = true ↔ ¬condition) := by
  rw [ensures_bind]
  refine searched.weaken ?_
  intro found after result
  obtain ⟨rfl, isFound⟩ := result
  rw [ensures_pure, ← isFound]
  exact ⟨rfl, by simp⟩

/-- The bits of a word of a bitmap. -/
theorem exists_word
    (mapped : memory.longs.Mapped bitmap (bitsToLongs bits))
    (below : k < bitsToLongs bits) :
    ∃ word,
      memory.longs.cell (bitmap + k) = some word ∧
        ∀ index < 64,
          word.getLsbD index =
            memory.longs.bit bitmap (k * 64 + index) := by
  obtain ⟨word, atWord⟩ := mapped k below
  refine ⟨word, atWord, ?_⟩
  intro index inside
  rw [Region.bit_of_cell atWord (by omega)]
  congr 1
  omega

theorem reads_loadLong
    (mapped : memory.longs.Mapped bitmap (bitsToLongs bits))
    (below : k < bitsToLongs bits) :
    Reads memory (loadLong (bitmap + k)) (memory.longs.bit bitmap) k := by
  obtain ⟨word, atWord, isWord⟩ := exists_word mapped below
  rw [Reads, ensures_loadLong]
  exact ⟨word, atWord, rfl, isWord⟩

theorem reads_bothWords
    {op : BitVec 64 → BitVec 64 → BitVec 64}
    {onBits : Bool → Bool → Bool}
    (bitwise : Bitwise op onBits)
    (mapped1 : memory.longs.Mapped bitmap1 (bitsToLongs bits))
    (mapped2 : memory.longs.Mapped bitmap2 (bitsToLongs bits))
    (below : k < bitsToLongs bits) :
    Reads memory (bothWords op bitmap1 bitmap2 k)
      (combinedBits onBits memory.longs bitmap1 bitmap2) k := by
  obtain ⟨first, atFirst, isFirst⟩ := exists_word mapped1 below
  obtain ⟨second, atSecond, isSecond⟩ := exists_word mapped2 below
  simp only [Reads, bothWords, ensures_bind, ensures_loadLong,
    ensures_pure, atFirst, atSecond, Option.some.injEq, exists_eq_left']
  refine ⟨trivial, ?_⟩
  intro index inside
  rw [bitwise first second index inside, isFirst index inside,
    isSecond index inside, combinedBits]

/-- `__bitmap_empty` looks for a used bit that is set. -/
theorem ensures_bitmapEmpty
    (mapped : memory.longs.Mapped bitmap (bitsToLongs bits)) :
    (bitmapEmpty bitmap bits).Ensures memory fun result after =>
      after = memory ∧
        (result = true ↔
          ∀ index < bits, memory.longs.bit bitmap index = false) := by
  refine (ensures_not (ensures_anyNonzeroWord fun k below =>
    reads_loadLong mapped below)).weaken ?_
  intro result after isResult
  refine ⟨isResult.1, isResult.2.trans ?_⟩
  simp

/-- `__bitmap_full` looks for a used bit that is clear. -/
theorem ensures_bitmapFull
    (mapped : memory.longs.Mapped bitmap (bitsToLongs bits)) :
    (bitmapFull bitmap bits).Ensures memory fun result after =>
      after = memory ∧
        (result = true ↔
          ∀ index < bits, memory.longs.bit bitmap index = true) := by
  have words :
      ∀ k < bitsToLongs bits,
        Reads memory
          (do
            let word ← loadLong (bitmap + k)
            pure (~~~word))
          (fun index => !memory.longs.bit bitmap index) k := by
    intro k below
    obtain ⟨word, atWord, isWord⟩ := exists_word mapped below
    simp only [Reads, ensures_bind, ensures_loadLong, ensures_pure, atWord,
      Option.some.injEq, exists_eq_left']
    refine ⟨trivial, ?_⟩
    intro index inside
    rw [BitVec.getLsbD_not, isWord index inside, decide_eq_true inside,
      Bool.true_and]
  refine (ensures_not (ensures_anyNonzeroWord words)).weaken ?_
  intro result after isResult
  refine ⟨isResult.1, isResult.2.trans ?_⟩
  simp

/-- `__bitmap_equal` looks for a used bit that is different. -/
theorem ensures_bitmapEqual
    (mapped1 : memory.longs.Mapped bitmap1 (bitsToLongs bits))
    (mapped2 : memory.longs.Mapped bitmap2 (bitsToLongs bits)) :
    (bitmapEqual bitmap1 bitmap2 bits).Ensures memory fun result after =>
      after = memory ∧
        (result = true ↔
          ∀ index < bits,
            memory.longs.bit bitmap1 index =
              memory.longs.bit bitmap2 index) := by
  have tests :
      ∀ k < bitsToLongs bits,
        (do
          let first ← loadLong (bitmap1 + k)
          let second ← loadLong (bitmap2 + k)
          pure (first ≠ second) : Program CMemory Bool).Ensures memory
            fun found after =>
              after = memory ∧
                (found = true ↔
                  ∃ index < 64,
                    combinedBits xor memory.longs bitmap1 bitmap2
                      (k * 64 + index) = true) := by
    intro k below
    obtain ⟨first, atFirst, isFirst⟩ := exists_word mapped1 below
    obtain ⟨second, atSecond, isSecond⟩ := exists_word mapped2 below
    simp only [ensures_bind, ensures_loadLong, ensures_pure, atFirst,
      atSecond, Option.some.injEq, exists_eq_left', decide_eq_true_iff]
    refine ⟨trivial, ?_⟩
    have different : first ≠ second ↔ first ^^^ second ≠ 0 := by
      rw [not_iff_not, BitVec.ofNat_eq_ofNat, BitVec.xor_eq_zero_iff]
    rw [different, ne_zero_iff]
    refine exists_congr fun index => and_congr_right fun inside => ?_
    rw [BitVec.getLsbD_xor, isFirst index inside, isSecond index inside,
      combinedBits]
  refine (ensures_not (ensures_anyUsedWord tests fun k below =>
    reads_bothWords bitwise_xor mapped1 mapped2 below)).weaken ?_
  intro result after isResult
  refine ⟨isResult.1, isResult.2.trans ?_⟩
  simp [combinedBits]

/-- `__bitmap_intersects` looks for a used bit that is set in both. -/
theorem ensures_bitmapIntersects
    (mapped1 : memory.longs.Mapped bitmap1 (bitsToLongs bits))
    (mapped2 : memory.longs.Mapped bitmap2 (bitsToLongs bits)) :
    (bitmapIntersects bitmap1 bitmap2 bits).Ensures memory
      fun result after =>
        after = memory ∧
          (result = true ↔
            ∃ index < bits,
              memory.longs.bit bitmap1 index = true ∧
                memory.longs.bit bitmap2 index = true) := by
  refine (ensures_anyNonzeroWord fun k below =>
    reads_bothWords bitwise_and mapped1 mapped2 below).weaken ?_
  intro result after isResult
  refine ⟨isResult.1, isResult.2.trans ?_⟩
  simp [combinedBits]

/-- `__bitmap_subset` looks for a used bit that is set in the first only. -/
theorem ensures_bitmapSubset
    (mapped1 : memory.longs.Mapped bitmap1 (bitsToLongs bits))
    (mapped2 : memory.longs.Mapped bitmap2 (bitsToLongs bits)) :
    (bitmapSubset bitmap1 bitmap2 bits).Ensures memory
      fun result after =>
        after = memory ∧
          (result = true ↔
            ∀ index < bits,
              memory.longs.bit bitmap1 index = true →
              memory.longs.bit bitmap2 index = true) := by
  refine (ensures_not (ensures_anyNonzeroWord fun k below =>
    reads_bothWords bitwise_andnot mapped1 mapped2 below)).weaken ?_
  intro result after isResult
  refine ⟨isResult.1, isResult.2.trans ?_⟩
  simp [combinedBits]

/-- The sum of the weights of all words, without the unused bits. -/
def weightOf
    (longs : Region (BitVec 64))
    (bitmap : Int)
    (bits : Nat) : Nat :=
  ((List.range (bitsToLongs bits)).map fun k =>
    (hweight64 (usedWord longs bitmap bits k)).toNat).sum

theorem weightOf_congr
    {longs other : Region (BitVec 64)}
    (same :
      ∀ index < bits, longs.bit bitmap index = other.bit bitmap index) :
    weightOf longs bitmap bits = weightOf other bitmap bits := by
  rw [weightOf, weightOf]
  congr 1
  refine List.map_congr_left fun k isMember => ?_
  rw [usedWord_congr same (List.mem_range.mp isMember)]

/-- `__bitmap_weight` adds up the weights of the words. -/
theorem ensures_bitmapWeight
    (mapped : memory.longs.Mapped bitmap (bitsToLongs bits)) :
    (bitmapWeight bitmap bits).Ensures memory fun w after =>
      after = memory ∧ w = weightOf memory.longs bitmap bits := by
  have size : bits / 64 ≤ bitsToLongs bits := by
    simp only [bitsToLongs]
    omega
  rw [bitmapWeight, ensures_bind]
  refine (ensures_foldUp
    (fun done (w : Nat) after =>
      after = memory ∧
        w =
          ((List.range done).map fun k =>
            (hweight64 (usedWord memory.longs bitmap bits k)).toNat).sum)
    ⟨rfl, rfl⟩ ?_).weaken ?_
  · intro done below w before holds
    obtain ⟨rfl, rfl⟩ := holds
    obtain ⟨word, atWord⟩ := mapped done (by omega)
    simp only [ensures_bind, ensures_loadLong, ensures_pure, atWord,
      Option.some.injEq, exists_eq_left']
    have isUsed : word = usedWord before.longs bitmap bits done := by
      rw [usedWord, atWord, Option.getD_some, if_pos below]
    refine ⟨trivial, ?_⟩
    rw [List.range_succ, List.map_append, List.sum_append,
      List.map_singleton, List.sum_singleton, ← isUsed]
  · intro w before holds
    obtain ⟨rfl, rfl⟩ := holds
    rw [ensures_ite]
    split
    · have last : bits / 64 + 1 = bitsToLongs bits := by
        simp only [bitsToLongs]
        omega
      obtain ⟨word, atWord⟩ := mapped (bits / 64) (by omega)
      simp only [ensures_bind, ensures_loadLong, ensures_pure, atWord,
        Option.some.injEq, exists_eq_left']
      have isUsed :
          word &&& lastWordMask bits =
            usedWord before.longs bitmap bits (bits / 64) := by
        rw [usedWord, atWord, Option.getD_some, if_neg (lt_irrefl _)]
      refine ⟨trivial, ?_⟩
      rw [weightOf, ← last, List.range_succ, List.map_append,
        List.sum_append, List.map_singleton, List.sum_singleton, isUsed]
    · have last : bits / 64 = bitsToLongs bits := by
        simp only [bitsToLongs]
        omega
      rw [ensures_pure, weightOf, last]
      exact ⟨rfl, rfl⟩

end Compare

section Shift

variable {memory before : CMemory}
variable {dst src : Int}
variable {shift bits done : Nat}

/-- `__bitmap_shift_left` shifts the bits and clears the unused ones. -/
theorem becomes_bitmapShiftLeft
    (mapped : memory.longs.Mapped dst (bitsToLongs bits))
    (source : memory.longs.Mapped src (bitsToLongs bits))
    (apart : SameOrApart dst src (bitsToLongs bits))
    (fits : shift / 64 ≤ bitsToLongs bits) :
    (bitmapShiftLeft dst src shift bits).Ensures memory fun _ =>
      Becomes memory dst bits
        (shiftedLeft memory.longs src shift bits) := by
  refine (ensures_bitmapShiftLeft mapped source apart fits).weaken ?_
  intro _ after result
  obtain ⟨sameChars, stillMapped, same, isValue⟩ := result
  exact ⟨sameChars, stillMapped, same, isValue⟩

/-- A bit of a bitmap that is shifted right. -/
def shiftedRight
    (longs : Region (BitVec 64))
    (src : Int)
    (shift bits index : Nat) : Bool :=
  decide (index + shift < bits) && longs.bit src (index + shift)

/-- The word that two neighbouring words shift into. -/
theorem getLsbD_shiftedRightWord
    {lower upper : BitVec 64}
    {rem index : Nat}
    (bound : rem < 64)
    (inside : index < 64) :
    ((upper <<< (64 - rem)) ||| (lower >>> rem)).getLsbD index =
      if index + rem < 64 then lower.getLsbD (index + rem)
      else upper.getLsbD (index + rem - 64) := by
  have fromUpper : index < 64 - rem ↔ index + rem < 64 := by
    omega
  simp only [BitVec.getLsbD_or, BitVec.getLsbD_ushiftRight,
    BitVec.getLsbD_shiftLeft, inside, decide_true, Bool.true_and,
    Nat.add_comm rem index, fromUpper]
  split
  · rename_i low
    simp [low]
  · rename_i high
    have beyond : lower.getLsbD (index + rem) = false :=
      BitVec.getLsbD_of_ge _ _ (by omega)
    have same : index - (64 - rem) = index + rem - 64 := by
      omega
    simp [high, beyond, same]

/-- A word without its unused bits, if it is the last one. -/
private theorem getLsbD_maskedLast
    {longs : Region (BitVec 64)}
    {word : BitVec 64}
    {k index : Nat}
    (below : k < bitsToLongs bits)
    (isWord : word.getLsbD index = longs.bit src (k * 64 + index))
    (inside : index < 64)
    {condition : Prop}
    [Decidable condition]
    (isLast : condition ↔ bits % 64 ≠ 0 ∧ k = bitsToLongs bits - 1) :
    (if condition then word &&& (((1 : BitVec 64) <<< (bits % 64)) - 1)
      else word).getLsbD index =
      (decide (k * 64 + index < bits) &&
        longs.bit src (k * 64 + index)) := by
  simp only [bitsToLongs] at below isLast
  split
  · rename_i holds
    have last := isLast.mp holds
    have used : index < bits % 64 ↔ k * 64 + index < bits := by
      omega
    rw [BitVec.getLsbD_and, getLsbD_lowMask (by omega), isWord,
      Bool.and_comm]
    simp only [used]
  · rename_i fails
    have notLast := mt isLast.mpr fails
    rw [isWord, decide_eq_true (by omega), Bool.true_and]

/-- The word above, if its bits are needed. -/
private theorem ensures_bitmapShiftUpper
    (source : before.longs.Mapped src (bitsToLongs bits)) :
    (bitmapShiftUpper src shift bits done).Ensures before
      fun upper after =>
        after = before ∧
          (shift % 64 ≠ 0 →
            ∀ index < 64,
              upper.getLsbD index =
                (decide ((shift / 64 + done + 1) * 64 + index < bits) &&
                  before.longs.bit src
                    ((shift / 64 + done + 1) * 64 + index))) := by
  rw [bitmapShiftUpper, ensures_ite]
  split
  · rename_i nothing
    rw [ensures_pure]
    refine ⟨rfl, fun unaligned index inside => ?_⟩
    have beyond : ¬(shift / 64 + done + 1) * 64 + index < bits := by
      simp only [bitsToLongs] at nothing
      omega
    simp [beyond]
  · rename_i needed
    obtain ⟨upper, atUpper⟩ := source (shift / 64 + done + 1) (by omega)
    rw [ensures_bind, ensures_loadLong]
    refine ⟨upper, atUpper, ?_⟩
    rw [ensures_pure]
    refine ⟨rfl, fun _ index inside => ?_⟩
    exact getLsbD_maskedLast (by omega)
      (Region.getLsbD_of_cell atUpper inside) inside and_comm

/-- The loop of `__bitmap_shift_right` writes one word. -/
theorem ensures_bitmapShiftRightWord
    (mapped : before.longs.Mapped dst (bitsToLongs bits))
    (source : before.longs.Mapped src (bitsToLongs bits))
    (below : shift / 64 + done < bitsToLongs bits) :
    (bitmapShiftRightWord dst src shift bits done).Ensures before
      fun _ after =>
        ∃ word : BitVec 64,
          after =
              { before with
                longs := before.longs.write (dst + done) word } ∧
            ∀ index < 64,
              word.getLsbD index =
                shiftedRight before.longs src shift bits
                  (done * 64 + index) := by
  rw [bitmapShiftRightWord]
  dsimp only
  rw [ensures_bind]
  refine (ensures_bitmapShiftUpper source).weaken ?_
  intro upper between isUpper
  obtain ⟨rfl, isUpper⟩ := isUpper
  obtain ⟨word, atLower⟩ := source _ below
  have isLower
      {index : Nat}
      (inside : index < 64) :=
    getLsbD_maskedLast below (Region.getLsbD_of_cell atLower inside) inside
      (iff_of_eq (rfl : (bits % 64 ≠ 0 ∧
        shift / 64 + done = bitsToLongs bits - 1) = _))
  obtain ⟨old, atDst⟩ := mapped done (by omega)
  simp only [ensures_bind, ensures_loadLong, ensures_storeLong, atLower,
    Option.some.injEq, exists_eq_left', atDst, exists_eq', true_and]
  generalize
    (if bits % 64 ≠ 0 ∧ shift / 64 + done = bitsToLongs bits - 1 then
      word &&& (((1 : BitVec 64) <<< (bits % 64)) - 1)
    else word) = lower at isLower ⊢
  have computed :
      ∀ index < 64,
        ((upper <<< (64 - shift % 64)) |||
            (lower >>> (shift % 64))).getLsbD index =
          shiftedRight between.longs src shift bits
            (done * 64 + index) := by
    intro index inside
    rw [getLsbD_shiftedRightWord (by omega) inside, shiftedRight]
    split
    · rename_i low
      have position :
          (shift / 64 + done) * 64 + (index + shift % 64) =
            done * 64 + index + shift := by
        omega
      rw [isLower low, position]
    · rename_i high
      have position :
          (shift / 64 + done + 1) * 64 + (index + shift % 64 - 64) =
            done * 64 + index + shift := by
        omega
      rw [isUpper (by omega) _ (by omega), position]
  by_cases last : bits % 64 ≠ 0 ∧ done = bitsToLongs bits - 1
  · rw [ensures_onlyIf_of last]
    simp only [ensures_bind, ensures_loadLong, ensures_storeLong,
      Region.write_cell_same, Option.some.injEq, exists_eq_left',
      exists_eq', true_and, Region.write_write]
    refine ⟨_, rfl, ?_⟩
    intro index inside
    rw [BitVec.getLsbD_and, getLsbD_lowMask (by omega),
      computed index inside]
    by_cases used : index < bits % 64
    · rw [decide_eq_true used, Bool.and_true]
    · have unused : ¬done * 64 + index + shift < bits := by
        simp only [bitsToLongs] at last
        omega
      rw [decide_eq_false used, Bool.and_false, shiftedRight,
        decide_eq_false unused, Bool.false_and]
  · rw [ensures_onlyIf_of_not last]
    exact ⟨_, rfl, computed⟩

/-- One round of the loop of `__bitmap_shift_right`. -/
private theorem Storing.bitmapShiftRightWord
    (source : memory.longs.Mapped src (bitsToLongs bits))
    (apart : SameOrApart dst src (bitsToLongs bits))
    (below : shift / 64 + done < bitsToLongs bits)
    (storing :
      Storing memory dst (bitsToLongs bits) done
        (shiftedRight memory.longs src shift bits) before) :
    (bitmapShiftRightWord dst src shift bits done).Ensures before
      fun _ =>
        Storing memory dst (bitsToLongs bits) (done + 1)
          (shiftedRight memory.longs src shift bits) := by
  have stillMapped :=
    storing.outside.mapped (storing.mapped.mono (by omega)) source
  refine (ensures_bitmapShiftRightWord storing.mapped stillMapped
    below).weaken ?_
  intro _ after written
  obtain ⟨word, rfl, isWord⟩ := written
  apply storing.next
  intro index inside
  rw [isWord index inside, shiftedRight, shiftedRight]
  by_cases used : done * 64 + index + shift < bits
  · have unread :=
      storing.cell_source apart
        (by omega : done ≤ (done * 64 + index + shift) / 64)
        (by simp only [bitsToLongs]; omega)
    rw [Region.bit_congr unread]
  · rw [decide_eq_false used, Bool.false_and, Bool.false_and]

/-- `__bitmap_shift_right` shifts the bits and clears the unused ones. -/
theorem ensures_bitmapShiftRight
    (mapped : memory.longs.Mapped dst (bitsToLongs bits))
    (source : memory.longs.Mapped src (bitsToLongs bits))
    (apart : SameOrApart dst src (bitsToLongs bits))
    (fits : shift / 64 ≤ bitsToLongs bits) :
    (bitmapShiftRight dst src shift bits).Ensures memory fun _ =>
      Becomes memory dst bits
        (shiftedRight memory.longs src shift bits) := by
  rw [bitmapShiftRight, ensures_bind]
  refine (ensures_countUp
    (fun done =>
      Storing memory dst (bitsToLongs bits) done
        (shiftedRight memory.longs src shift bits))
    (.start mapped) fun done below before storing =>
      storing.bitmapShiftRightWord source apart (by omega)).weaken ?_
  intro _ shifted storing
  by_cases whole : shift / 64 = 0
  · rw [ensures_onlyIf_of_not (by simpa using whole)]
    rw [whole, Nat.sub_zero] at storing
    exact storing.becomes
  · rw [ensures_onlyIf_of whole]
    have start :
        dst + (bitsToLongs bits : Int) - (shift / 64 : Nat) =
          dst + (bitsToLongs bits - shift / 64 : Nat) := by
      omega
    rw [start]
    refine (ensures_clearLongs (storing.mapped.drop (by omega))).weaken ?_
    intro _ after cleared
    obtain ⟨sameChars, mappedAbove, same, isZero⟩ := cleared
    refine ⟨sameChars.trans storing.chars,
      same.mapped mappedAbove storing.mapped, ?_, ?_⟩
    · intro address isOutside
      rw [same address (by omega)]
      exact storing.outside address (by omega)
    · intro index bound
      by_cases low : index < (bitsToLongs bits - shift / 64) * 64
      · rw [Region.bit_congr (same _ (.inl (by omega)))]
        exact storing.isValue index low
      · have atZero :=
          isZero (index / 64 - (bitsToLongs bits - shift / 64)) (by omega)
        have position :
            dst + ((bitsToLongs bits - shift / 64 : Nat) : Int) +
                ((index / 64 - (bitsToLongs bits - shift / 64) : Nat) :
                  Int) =
              dst + (index / 64 : Nat) := by
          omega
        have beyond : ¬index + shift < bits := by
          simp only [bitsToLongs] at low
          omega
        rw [position] at atZero
        rw [Region.bit_of_cell atZero rfl, shiftedRight,
          decide_eq_false beyond]
        simp

/-- A shift by at most the number of bits. -/
theorem shift_div_le
    (atMost : shift ≤ bits) :
    shift / 64 ≤ bitsToLongs bits := by
  simp only [bitsToLongs]
  omega

/-- A bitmap has these used bits, and no other word was written. -/
structure Shifted
    (memory : CMemory)
    (dst : Int)
    (bits : Nat)
    (value : Nat → Bool)
    (after : CMemory) : Prop where
  isValue : ∀ index < bits, after.longs.bit dst index = value index
  unused :
    ∀ index, bits ≤ index → index < bitsToLongs bits * 64 →
      after.longs.bit dst index = false
  chars : after.chars = memory.chars
  outside : memory.longs.SameOutside after.longs dst (bitsToLongs bits)

private theorem Becomes.shifted
    {value used : Nat → Bool}
    {after : CMemory}
    (becomes : Becomes memory dst bits value after)
    (isUsed : ∀ index < bits, value index = used index)
    (isUnused : ∀ index, bits ≤ index → value index = false) :
    Shifted memory dst bits used after where
  isValue index below := by
    have inside : index < bitsToLongs bits * 64 := by
      simp only [bitsToLongs]
      omega
    rw [becomes.isValue index inside, isUsed index below]
  unused index above inside := by
    rw [becomes.isValue index inside, isUnused index above]
  chars := becomes.chars
  outside := becomes.outside

/--
The shifts move every used bit, and they clear the unused bits of the result.
The result may be the source itself.
-/
theorem shifts_move_bits
    (mapped : memory.longs.Mapped dst (bitsToLongs bits))
    (source : memory.longs.Mapped src (bitsToLongs bits))
    (apart : SameOrApart dst src (bitsToLongs bits))
    (atMost : shift ≤ bits) :
    ((bitmapShiftLeft dst src shift bits).Ensures memory fun _ =>
      Shifted memory dst bits fun index =>
        if shift ≤ index then memory.longs.bit src (index - shift)
        else false) ∧
      (bitmapShiftRight dst src shift bits).Ensures memory fun _ =>
        Shifted memory dst bits fun index =>
          if index + shift < bits then
            memory.longs.bit src (index + shift)
          else
            false := by
  have fits := shift_div_le atMost
  constructor
  · refine (becomes_bitmapShiftLeft mapped source apart fits).weaken ?_
    intro _ after becomes
    refine becomes.shifted ?_ ?_
    · intro index below
      by_cases moved : shift ≤ index <;> simp [shiftedLeft, moved, below]
    · intro index above
      simp [shiftedLeft, Nat.not_lt.mpr above]
  · refine (ensures_bitmapShiftRight mapped source apart fits).weaken ?_
    intro _ after becomes
    refine becomes.shifted ?_ ?_
    · intro index below
      by_cases moved : index + shift < bits <;>
        simp [shiftedRight, moved]
    · intro index above
      have beyond : ¬index + shift < bits := by
        omega
      simp [shiftedRight, beyond]

/-- A bitmap of two words. -/
def twoWords : CMemory where
  longs := .ofList [0x8000000000000001, 0xff]
  chars := .ofList []

/-- A bitmap of 70 bits is shifted in place by three bits. -/
theorem shifts_move_bits_in_place :
    ((bitmapShiftLeft 0 0 3 70).Ensures twoWords fun _ =>
      Shifted twoWords 0 70 fun index =>
        if 3 ≤ index then twoWords.longs.bit 0 (index - 3) else false) ∧
      (bitmapShiftRight 0 0 3 70).Ensures twoWords fun _ =>
        Shifted twoWords 0 70 fun index =>
          if index + 3 < 70 then twoWords.longs.bit 0 (index + 3)
          else false :=
  shifts_move_bits (Region.mapped_ofList (by decide))
    (Region.mapped_ofList (by decide)) (.inl rfl) (by decide)

end Shift

end LibKern.Bitmap
