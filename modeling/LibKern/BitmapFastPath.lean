import LibKern.BitmapDontCare

namespace LibKern.Bitmap

/-!
# The inline operations

If the compiler knows that a bitmap fits into one word, then the operations of
`include/bitmap.h` work on this word and do not call the functions of
`lib/bitmap.c`.  `bitmap_shift_right` does not mask the word it shifts, so it
moves unused bits into the used part.
-/

open Program

/-- The function of `include/bitmap.h` for an operation. -/
def WordOperation.inline (constant : Bool) (nbits : Nat) :
    WordOperation → Program CMemory Value
  | .empty src => truthValue (Inline.bitmapEmpty constant src nbits)
  | .full src => truthValue (Inline.bitmapFull constant src nbits)
  | .equal src1 src2 =>
      truthValue (Inline.bitmapEqual constant src1 src2 nbits)
  | .intersects src1 src2 =>
      truthValue (Inline.bitmapIntersects constant src1 src2 nbits)
  | .subset src1 src2 =>
      truthValue (Inline.bitmapSubset constant src1 src2 nbits)
  | .weight src => do
      let w ← Inline.bitmapWeight constant src nbits
      pure (.number w)
  | .complement dst src =>
      noValue (Inline.bitmapComplement constant dst src nbits)
  | .shiftLeft dst src n =>
      noValue (Inline.bitmapShiftLeft constant dst src n nbits)
  | .shiftRight dst src n =>
      noValue (Inline.bitmapShiftRight constant dst src n nbits)
  | .and dst src1 src2 =>
      truthValue (Inline.bitmapAnd constant dst src1 src2 nbits)
  | .or dst src1 src2 =>
      noValue (Inline.bitmapOr constant dst src1 src2 nbits)
  | .xor dst src1 src2 =>
      noValue (Inline.bitmapXor constant dst src1 src2 nbits)
  | .andnot dst src1 src2 =>
      truthValue (Inline.bitmapAndnot constant dst src1 src2 nbits)

/-- A number of bits that is not constant takes the path over `lib/bitmap.c`. -/
theorem WordOperation.inline_false
    (operation : WordOperation)
    (nbits : Nat) :
    operation.inline false nbits = operation.program nbits := by
  have notSmall : ¬Inline.smallConstNbits false nbits := by
    simp [Inline.smallConstNbits]
  cases operation <;>
    simp only [inline, program, Inline.bitmapEmpty, Inline.bitmapFull,
      Inline.bitmapEqual, Inline.bitmapIntersects, Inline.bitmapSubset,
      Inline.bitmapWeight, Inline.bitmapComplement,
      Inline.bitmapShiftLeft, Inline.bitmapShiftRight, Inline.bitmapAnd,
      Inline.bitmapOr, Inline.bitmapXor, Inline.bitmapAndnot,
      if_neg notSmall]

/-- Both paths return the same value and the same used bits. -/
def WordOperation.SamePath
    (operation : WordOperation)
    (nbits : Nat)
    (memory : CMemory) : Prop :=
  (operation.inline true nbits).Ensures memory fun value after =>
    (operation.inline false nbits).Ensures memory
      fun slowValue slowAfter =>
        value = slowValue ∧
          ∀ dst ∈ operation.outputs, ∀ index < nbits,
            after.longs.bit dst index = slowAfter.longs.bit dst index

/-- The shift amount is less than the size of a word. -/
def WordOperation.ShiftsInWord : WordOperation → Prop
  | .shiftLeft _ _ n => n < 64
  | .shiftRight _ _ n => n < 64
  | _ => True

/-- No unused bit that is set is shifted into the used part. -/
def WordOperation.ShiftsNoUnused
    (nbits : Nat)
    (memory : CMemory) : WordOperation → Prop
  | .shiftRight _ src n =>
      ∀ index < nbits, nbits ≤ index + n → index + n < 64 →
        memory.longs.bit src (index + n) = false
  | _ => True

section Paths

variable {memory : CMemory}
variable {nbits : Nat}
variable {operation : WordOperation}
variable {dst src src1 src2 : Int}

theorem small
    (fits : nbits ≤ 64) :
    Inline.smallConstNbits true nbits :=
  ⟨rfl, fits⟩

/-- A bitmap of at most 64 bits is one word. -/
theorem bitsToLongs_of_le
    (positive : 1 ≤ nbits)
    (fits : nbits ≤ 64) :
    bitsToLongs nbits = 1 := by
  simp only [bitsToLongs]
  omega

/-- Two words are the same or do not overlap. -/
theorem sameOrApart_of_le
    (positive : 1 ≤ nbits)
    (fits : nbits ≤ 64)
    (one other : Int) :
    SameOrApart one other (bitsToLongs nbits) := by
  rw [bitsToLongs_of_le positive fits, SameOrApart]
  omega

/-- The word of a bitmap. -/
theorem exists_singleWord
    (positive : 1 ≤ nbits)
    (mapped : memory.longs.Mapped src (bitsToLongs nbits)) :
    ∃ word,
      memory.longs.cell src = some word ∧
        ∀ index < 64,
          word.getLsbD index = memory.longs.bit src index := by
  have below : 0 < bitsToLongs nbits := by
    simp only [bitsToLongs]
    omega
  obtain ⟨word, atWord, isWord⟩ := exists_word mapped below
  refine ⟨word, by simpa using atWord, fun index inside => ?_⟩
  rw [isWord index inside, Nat.zero_mul, Nat.zero_add]

/-- The used bits of a word. -/
theorem and_lastWordMask_ne_zero_iff
    {word : BitVec 64}
    (positive : 1 ≤ nbits)
    (fits : nbits ≤ 64) :
    word &&& lastWordMask nbits ≠ 0 ↔
      ∃ index < nbits, word.getLsbD index = true := by
  rw [ne_zero_iff]
  constructor
  · intro isSet
    obtain ⟨index, inside, isSet⟩ := isSet
    rw [BitVec.getLsbD_and, getLsbD_lastWordMask inside, Bool.and_eq_true,
      decide_eq_true_iff] at isSet
    exact ⟨index, by omega, isSet.1⟩
  · intro isSet
    obtain ⟨index, used, isSet⟩ := isSet
    refine ⟨index, by omega, ?_⟩
    rw [BitVec.getLsbD_and, getLsbD_lastWordMask (by omega), isSet,
      decide_eq_true (by omega), Bool.and_true]

/-- An operation that returns a truth value only. -/
theorem samePath_of_truth
    {fast slow : Program CMemory Bool}
    {condition : Prop}
    (isFast : operation.inline true nbits = truthValue fast)
    (isSlow : operation.program nbits = truthValue slow)
    (noOutputs : operation.outputs = [])
    (fastEnsured :
      fast.Ensures memory fun value _ => value = true ↔ condition)
    (slowEnsured :
      slow.Ensures memory fun value after =>
        after = memory ∧ (value = true ↔ condition)) :
    operation.SamePath nbits memory := by
  rw [WordOperation.SamePath, WordOperation.inline_false, isFast, isSlow,
    truthValue, truthValue, ensures_bind]
  refine fastEnsured.weaken ?_
  intro value after isValue
  rw [ensures_pure, ensures_bind]
  refine slowEnsured.weaken ?_
  intro slowValue slowAfter isSlowValue
  rw [ensures_pure, noOutputs]
  have same : value = slowValue := by
    rw [Bool.eq_iff_iff, isValue, isSlowValue.2]
  exact ⟨congrArg Value.truth same, by simp⟩

/-- An operation that has a result. -/
theorem samePath_iff_of_result
    {isValue : Value → Prop}
    {fastBits slowBits : Nat → Bool}
    (isOutput : operation.outputs = [dst])
    (unique :
      ∀ value slowValue, isValue value → isValue slowValue →
        value = slowValue)
    (fast :
      (operation.inline true nbits).Ensures memory fun value after =>
        isValue value ∧
          ∀ index < nbits,
            after.longs.bit dst index = fastBits index)
    (slow :
      (operation.program nbits).Ensures memory fun value after =>
        isValue value ∧
          ∀ index < nbits,
            after.longs.bit dst index = slowBits index) :
    operation.SamePath nbits memory ↔
      ∀ index < nbits, fastBits index = slowBits index := by
  rw [WordOperation.SamePath, WordOperation.inline_false, isOutput]
  simp only [List.forall_mem_singleton]
  constructor
  · intro same index used
    obtain ⟨value, after, returned, slowSame⟩ := same
    obtain ⟨slowValue, slowAfter, slowReturned, -, sameBits⟩ := slowSame
    have fastResult := (fast.of_returns returned).2 index used
    have slowResult := (slow.of_returns slowReturned).2 index used
    rw [← fastResult, ← slowResult, sameBits index used]
  · intro same
    refine fast.weaken ?_
    intro value after fastResult
    refine slow.weaken ?_
    intro slowValue slowAfter slowResult
    refine ⟨unique _ _ fastResult.1 slowResult.1, ?_⟩
    intro index used
    rw [fastResult.2 index used, slowResult.2 index used,
      same index used]

/-- The used bits of a result of `lib/bitmap.c`. -/
theorem Becomes.isUsed
    {value : Nat → Bool}
    {after : CMemory}
    (becomes : Becomes memory dst nbits value after) :
    ∀ index < nbits, after.longs.bit dst index = value index := by
  intro index used
  apply becomes.isValue
  simp only [bitsToLongs]
  omega

/-- An operation that has a result and no value. -/
theorem samePath_iff_of_noValue
    {fast slow : Program CMemory Unit}
    {fastBits slowBits : Nat → Bool}
    (isOutput : operation.outputs = [dst])
    (isFast : operation.inline true nbits = noValue fast)
    (isSlow : operation.program nbits = noValue slow)
    (fastEnsured :
      fast.Ensures memory fun _ after =>
        ∀ index < nbits, after.longs.bit dst index = fastBits index)
    (slowEnsured :
      slow.Ensures memory fun _ => Becomes memory dst nbits slowBits) :
    operation.SamePath nbits memory ↔
      ∀ index < nbits, fastBits index = slowBits index := by
  refine @samePath_iff_of_result _ _ _ _ (fun value => value = .nothing)
    _ _ isOutput (by rintro _ _ rfl rfl; rfl) ?_ ?_
  · rw [isFast, noValue, ensures_bind]
    refine fastEnsured.weaken ?_
    intro _ after isResult
    exact ensures_pure.mpr ⟨rfl, isResult⟩
  · rw [isSlow, noValue, ensures_bind]
    refine slowEnsured.weaken ?_
    intro _ after becomes
    exact ensures_pure.mpr ⟨rfl, becomes.isUsed⟩

/-- An operation that has a result and a truth value. -/
theorem samePath_of_truthResult
    {fast slow : Program CMemory Bool}
    {condition : Prop}
    {bits : Nat → Bool}
    (isOutput : operation.outputs = [dst])
    (isFast : operation.inline true nbits = truthValue fast)
    (isSlow : operation.program nbits = truthValue slow)
    (fastEnsured :
      fast.Ensures memory fun value after =>
        (∀ index < nbits, after.longs.bit dst index = bits index) ∧
          (value = true ↔ condition))
    (slowEnsured :
      slow.Ensures memory fun value after =>
        Becomes memory dst nbits bits after ∧
          (value = true ↔ condition)) :
    operation.SamePath nbits memory := by
  have unique :
      ∀ value slowValue,
        (∃ truth, value = Value.truth truth ∧
          (truth = true ↔ condition)) →
        (∃ truth, slowValue = Value.truth truth ∧
          (truth = true ↔ condition)) →
        value = slowValue := by
    rintro _ _ ⟨truth, rfl, isTruth⟩ ⟨slowTruth, rfl, isSlowTruth⟩
    exact congrArg Value.truth
      (Bool.eq_iff_iff.mpr (isTruth.trans isSlowTruth.symm))
  refine (samePath_iff_of_result isOutput unique ?_ ?_).mpr
    fun index used => Eq.refl (bits index)
  · rw [isFast, truthValue, ensures_bind]
    refine fastEnsured.weaken ?_
    intro truth after isResult
    exact ensures_pure.mpr ⟨⟨truth, rfl, isResult.2⟩, isResult.1⟩
  · rw [isSlow, truthValue, ensures_bind]
    refine slowEnsured.weaken ?_
    intro truth after isResult
    exact ensures_pure.mpr
      ⟨⟨truth, rfl, isResult.2⟩, isResult.1.isUsed⟩

/-- The used bits of a word that is written to the result. -/
theorem bit_of_write
    {word : BitVec 64}
    {index : Nat}
    (fits : nbits ≤ 64)
    (used : index < nbits) :
    (memory.longs.write dst word).bit dst index = word.getLsbD index := by
  have isZero : index / 64 = 0 := by
    omega
  have same : index % 64 = index := by
    omega
  rw [Region.bit, isZero, same, Nat.cast_zero, add_zero,
    Region.write_cell_same, Option.getD_some]

/-- The combined word of two bitmaps of one word. -/
theorem exists_combinedWord
    {onBits : Bool → Bool → Bool}
    {op : BitVec 64 → BitVec 64 → BitVec 64}
    (bitwise : Bitwise op onBits)
    (positive : 1 ≤ nbits)
    (mapped1 : memory.longs.Mapped src1 (bitsToLongs nbits))
    (mapped2 : memory.longs.Mapped src2 (bitsToLongs nbits)) :
    ∃ first second,
      memory.longs.cell src1 = some first ∧
        memory.longs.cell src2 = some second ∧
        ∀ index < 64,
          (op first second).getLsbD index =
            combinedBits onBits memory.longs src1 src2 index := by
  obtain ⟨first, atFirst, isFirst⟩ := exists_singleWord positive mapped1
  obtain ⟨second, atSecond, isSecond⟩ := exists_singleWord positive mapped2
  refine ⟨first, second, atFirst, atSecond, fun index inside => ?_⟩
  rw [bitwise first second index inside, isFirst index inside,
    isSecond index inside, combinedBits]

/-- `bitmap_or` and `bitmap_xor` on both paths. -/
theorem samePath_combineWords
    {onBits : Bool → Bool → Bool}
    {op : BitVec 64 → BitVec 64 → BitVec 64}
    (bitwise : Bitwise op onBits)
    (positive : 1 ≤ nbits)
    (fits : nbits ≤ 64)
    (mapped : memory.longs.Mapped dst (bitsToLongs nbits))
    (mapped1 : memory.longs.Mapped src1 (bitsToLongs nbits))
    (mapped2 : memory.longs.Mapped src2 (bitsToLongs nbits))
    (isOutput : operation.outputs = [dst])
    (isFast :
      operation.inline true nbits =
        noValue (do
          let first ← loadLong src1
          let second ← loadLong src2
          storeLong dst (op first second)))
    (isSlow :
      operation.program nbits =
        noValue (combineWords dst src1 src2 nbits op)) :
    operation.SamePath nbits memory := by
  have apart := sameOrApart_of_le positive fits
  obtain ⟨first, second, atFirst, atSecond, isWord⟩ :=
    exists_combinedWord bitwise positive mapped1 mapped2
  obtain ⟨old, atDst, -⟩ := exists_singleWord positive mapped
  refine (samePath_iff_of_noValue isOutput isFast isSlow ?_
    (ensures_combineWords bitwise mapped mapped1 mapped2 (apart _ _)
      (apart _ _))).mpr fun index used => rfl
  simp only [ensures_bind, ensures_loadLong, ensures_storeLong, atFirst,
    atSecond, atDst, Option.some.injEq, exists_eq_left', exists_eq',
    true_and]
  intro index used
  rw [bit_of_write fits used, isWord index (by omega)]

/-- `bitmap_and` and `bitmap_andnot` on both paths. -/
theorem samePath_combineAnyWord
    {onBits : Bool → Bool → Bool}
    {op : BitVec 64 → BitVec 64 → BitVec 64}
    (bitwise : Bitwise op onBits)
    (positive : 1 ≤ nbits)
    (fits : nbits ≤ 64)
    (mapped : memory.longs.Mapped dst (bitsToLongs nbits))
    (mapped1 : memory.longs.Mapped src1 (bitsToLongs nbits))
    (mapped2 : memory.longs.Mapped src2 (bitsToLongs nbits))
    (isOutput : operation.outputs = [dst])
    (isFast :
      operation.inline true nbits =
        truthValue (do
          let first ← loadLong src1
          let second ← loadLong src2
          storeLong dst (op first second)
          pure (op first second ≠ 0)))
    (isSlow :
      operation.program nbits =
        truthValue (combineAnyWord dst src1 src2 nbits op)) :
    operation.SamePath nbits memory := by
  have apart := sameOrApart_of_le positive fits
  obtain ⟨first, second, atFirst, atSecond, isWord⟩ :=
    exists_combinedWord bitwise positive mapped1 mapped2
  obtain ⟨old, atDst, -⟩ := exists_singleWord positive mapped
  refine samePath_of_truthResult isOutput isFast isSlow ?_
    (ensures_combineAnyWord bitwise mapped mapped1 mapped2 (apart _ _)
      (apart _ _))
  simp only [ensures_bind, ensures_loadLong, ensures_storeLong,
    ensures_pure, atFirst, atSecond, atDst, Option.some.injEq,
    exists_eq_left', exists_eq', true_and]
  constructor
  · intro index used
    rw [bit_of_write fits used, isWord index (by omega)]
  · rw [decide_eq_true_iff, ne_zero_iff,
      bitsToLongs_of_le positive fits]
    exact exists_congr fun index => and_congr_right fun inside => by
      rw [isWord index inside]

/-- A test of the used bits of a word. -/
theorem decide_masked_eq_zero
    {word : BitVec 64}
    {value : Nat → Bool}
    (positive : 1 ≤ nbits)
    (fits : nbits ≤ 64)
    (isWord : ∀ index < 64, word.getLsbD index = value index) :
    decide (word &&& lastWordMask nbits = 0) = true ↔
      ¬∃ index < nbits, value index = true := by
  rw [decide_eq_true_iff, ← not_iff_not, not_not, ← ne_eq,
    and_lastWordMask_ne_zero_iff positive fits]
  exact exists_congr fun index => and_congr_right fun used => by
    rw [isWord index (by omega)]

/-- The fast path of an operation that tests two words. -/
theorem ensures_testBoth
    {onBits : Bool → Bool → Bool}
    {op : BitVec 64 → BitVec 64 → BitVec 64}
    (bitwise : Bitwise op onBits)
    (positive : 1 ≤ nbits)
    (fits : nbits ≤ 64)
    (mapped1 : memory.longs.Mapped src1 (bitsToLongs nbits))
    (mapped2 : memory.longs.Mapped src2 (bitsToLongs nbits)) :
    (do
      let first ← loadLong src1
      let second ← loadLong src2
      pure (decide (op first second &&& lastWordMask nbits = 0)) :
        Program CMemory Bool).Ensures memory fun value _ =>
          value = true ↔
            ¬∃ index < nbits,
              combinedBits onBits memory.longs src1 src2 index = true := by
  obtain ⟨first, second, atFirst, atSecond, isWord⟩ :=
    exists_combinedWord bitwise positive mapped1 mapped2
  simp only [ensures_bind, ensures_loadLong, ensures_pure, atFirst,
    atSecond, Option.some.injEq, exists_eq_left']
  exact decide_masked_eq_zero positive fits isWord

/-- `bitmap_shift_right` does not mask the word on the fast path. -/
theorem samePath_shiftRight_iff
    {n : Nat}
    (positive : 1 ≤ nbits)
    (fits : nbits ≤ 64)
    (inWord : n < 64)
    (mapped : memory.longs.Mapped dst (bitsToLongs nbits))
    (source : memory.longs.Mapped src (bitsToLongs nbits)) :
    (WordOperation.shiftRight dst src n).SamePath nbits memory ↔
      ∀ index < nbits, nbits ≤ index + n → index + n < 64 →
        memory.longs.bit src (index + n) = false := by
  obtain ⟨word, atWord, isWord⟩ := exists_singleWord positive source
  obtain ⟨old, atDst, -⟩ := exists_singleWord positive mapped
  have fast :
      (Inline.bitmapShiftRight true dst src n nbits).Ensures memory
        fun _ after =>
          ∀ index < nbits,
            after.longs.bit dst index =
              (decide (index + n < 64) &&
                memory.longs.bit src (index + n)) := by
    simp only [Inline.bitmapShiftRight, if_pos (small fits), ensures_bind,
      ensures_loadLong, ensures_storeLong, atWord, atDst,
      Option.some.injEq, exists_eq_left', exists_eq', true_and]
    intro index used
    rw [bit_of_write fits used, BitVec.getLsbD_ushiftRight,
      Nat.add_comm n index]
    by_cases inside : index + n < 64
    · rw [isWord _ inside, decide_eq_true inside, Bool.true_and]
    · rw [BitVec.getLsbD_of_ge _ _ (by omega), decide_eq_false inside,
        Bool.false_and]
  have slow :=
    ensures_bitmapShiftRight mapped source
      (sameOrApart_of_le positive fits dst src)
      (by omega : n / 64 ≤ bitsToLongs nbits)
  rw [samePath_iff_of_noValue rfl rfl rfl fast slow]
  refine forall₂_congr fun index used => ?_
  rw [shiftedRight]
  by_cases reached : index + n < nbits
  · simp only [reached, decide_true, Bool.true_and]
    refine iff_of_true ?_ (by omega)
    rw [decide_eq_true (by omega), Bool.true_and]
  · rw [decide_eq_false reached, Bool.false_and, Bool.and_eq_false_imp,
      decide_eq_true_iff]
    constructor
    · intro clear _ inside
      exact clear inside
    · intro clear inside
      exact clear (by omega) inside

/-- `bitmap_shift_left` masks the word on both paths. -/
theorem samePath_shiftLeft
    {n : Nat}
    (positive : 1 ≤ nbits)
    (fits : nbits ≤ 64)
    (inWord : n < 64)
    (mapped : memory.longs.Mapped dst (bitsToLongs nbits))
    (source : memory.longs.Mapped src (bitsToLongs nbits)) :
    (WordOperation.shiftLeft dst src n).SamePath nbits memory := by
  obtain ⟨word, atWord, isWord⟩ := exists_singleWord positive source
  obtain ⟨old, atDst, -⟩ := exists_singleWord positive mapped
  have fast :
      (Inline.bitmapShiftLeft true dst src n nbits).Ensures memory
        fun _ after =>
          ∀ index < nbits,
            after.longs.bit dst index =
              shiftedLeft memory.longs src n nbits index := by
    simp only [Inline.bitmapShiftLeft, if_pos (small fits), ensures_bind,
      ensures_loadLong, ensures_storeLong, atWord, atDst,
      Option.some.injEq, exists_eq_left', exists_eq', true_and]
    intro index used
    rw [bit_of_write fits used, BitVec.getLsbD_and,
      getLsbD_lastWordMask (by omega), decide_eq_true (by omega),
      Bool.and_true, BitVec.getLsbD_shiftLeft, isWord _ (by omega),
      shiftedLeft, decide_eq_true (by omega : index < 64), Bool.true_and]
    congr 1
    by_cases below : index < n
    · simp [below]
    · simp [below, used, Nat.not_lt.mp below]
  have slow :=
    becomes_bitmapShiftLeft mapped source
      (sameOrApart_of_le positive fits dst src)
      (by omega : n / 64 ≤ bitsToLongs nbits)
  exact (samePath_iff_of_noValue rfl rfl rfl fast slow).mpr
    fun index used => rfl

/-- `bitmap_complement` masks the word on both paths. -/
theorem samePath_complement
    (positive : 1 ≤ nbits)
    (fits : nbits ≤ 64)
    (mapped : memory.longs.Mapped dst (bitsToLongs nbits))
    (source : memory.longs.Mapped src (bitsToLongs nbits)) :
    (WordOperation.complement dst src).SamePath nbits memory := by
  obtain ⟨word, atWord, isWord⟩ := exists_singleWord positive source
  obtain ⟨old, atDst, -⟩ := exists_singleWord positive mapped
  have fast :
      (Inline.bitmapComplement true dst src nbits).Ensures memory
        fun _ after =>
          ∀ index < nbits,
            after.longs.bit dst index =
              (decide (index < nbits) &&
                !memory.longs.bit src index) := by
    simp only [Inline.bitmapComplement, if_pos (small fits), ensures_bind,
      ensures_loadLong, ensures_storeLong, atWord, atDst,
      Option.some.injEq, exists_eq_left', exists_eq', true_and]
    intro index used
    rw [bit_of_write fits used, BitVec.getLsbD_and,
      getLsbD_lastWordMask (by omega), decide_eq_true (by omega),
      Bool.and_true, BitVec.getLsbD_not, isWord _ (by omega),
      decide_eq_true used, decide_eq_true (by omega)]
  have slow :=
    ensures_bitmapComplement mapped source
      (sameOrApart_of_le positive fits dst src)
  exact (samePath_iff_of_noValue rfl rfl rfl fast slow).mpr
    fun index used => rfl

/-- `bitmap_weight` on both paths. -/
theorem samePath_weight
    (positive : 1 ≤ nbits)
    (fits : nbits ≤ 64)
    (mapped : memory.longs.Mapped src (bitsToLongs nbits)) :
    (WordOperation.weight src).SamePath nbits memory := by
  obtain ⟨word, atWord, isWord⟩ := exists_singleWord positive mapped
  have isOne := bitsToLongs_of_le positive fits
  have isUsed :
      word &&& lastWordMask nbits = usedWord memory.longs src nbits 0 := by
    apply BitVec.eq_of_getLsbD_eq
    intro index inside
    have used :
        (nbits % 64 = 0 ∨ index < nbits % 64) ↔ index < nbits := by
      omega
    rw [BitVec.getLsbD_and, getLsbD_lastWordMask inside,
      isWord index inside, getLsbD_usedWord (by omega) inside,
      Bool.and_comm, Nat.zero_mul, Nat.zero_add]
    simp only [used]
  rw [WordOperation.SamePath, WordOperation.inline_false,
    WordOperation.inline, WordOperation.program]
  simp only [Inline.bitmapWeight, if_pos (small fits), ensures_bind,
    ensures_loadLong, ensures_pure, atWord, Option.some.injEq,
    exists_eq_left']
  refine (ensures_bitmapWeight mapped).weaken ?_
  intro w after isWeight
  rw [isWeight.2, weightOf, isOne]
  simp [isUsed, WordOperation.outputs]

/--
Both paths agree, if and only if `bitmap_shift_right` does not shift an unused
bit into the used part.
-/
theorem WordOperation.samePath_iff
    (positive : 1 ≤ nbits)
    (fits : nbits ≤ 64)
    (inWord : operation.ShiftsInWord)
    (inputs :
      ∀ bitmap ∈ operation.inputs,
        memory.longs.Mapped bitmap (bitsToLongs nbits))
    (outputs :
      ∀ dst ∈ operation.outputs,
        memory.longs.Mapped dst (bitsToLongs nbits)) :
    operation.SamePath nbits memory ↔
      operation.ShiftsNoUnused nbits memory := by
  have isSmall := small fits
  cases operation <;>
    simp only [WordOperation.inputs, WordOperation.outputs,
      List.forall_mem_cons, List.not_mem_nil, false_implies, implies_true,
      and_true] at inputs outputs
  case empty src =>
    refine iff_of_true (samePath_of_truth rfl rfl rfl ?_
      (ensures_bitmapEmpty inputs)) trivial
    obtain ⟨word, atWord, isWord⟩ := exists_singleWord positive inputs
    simp only [Inline.bitmapEmpty, if_pos isSmall, ensures_bind,
      ensures_loadLong, ensures_pure, atWord, Option.some.injEq,
      exists_eq_left']
    rw [decide_masked_eq_zero positive fits isWord]
    simp
  case full src =>
    refine iff_of_true (samePath_of_truth rfl rfl rfl ?_
      (ensures_bitmapFull inputs)) trivial
    obtain ⟨word, atWord, isWord⟩ := exists_singleWord positive inputs
    have isNot :
        ∀ index < 64,
          (~~~word).getLsbD index = !memory.longs.bit src index := by
      intro index inside
      rw [BitVec.getLsbD_not, isWord index inside, decide_eq_true inside,
        Bool.true_and]
    simp only [Inline.bitmapFull, if_pos isSmall, ensures_bind,
      ensures_loadLong, ensures_pure, atWord, Option.some.injEq,
      exists_eq_left']
    rw [decide_masked_eq_zero positive fits isNot]
    simp
  case equal src1 src2 =>
    refine iff_of_true (samePath_of_truth rfl rfl rfl ?_
      (ensures_bitmapEqual inputs.1 inputs.2)) trivial
    rw [Inline.bitmapEqual, if_pos isSmall]
    refine (ensures_testBoth bitwise_xor positive fits inputs.1
      inputs.2).weaken ?_
    intro value _ isValue
    rw [isValue]
    simp [combinedBits]
  case intersects src1 src2 =>
    refine iff_of_true (samePath_of_truth rfl rfl rfl ?_
      (ensures_bitmapIntersects inputs.1 inputs.2)) trivial
    obtain ⟨first, second, atFirst, atSecond, isWord⟩ :=
      exists_combinedWord bitwise_and positive inputs.1 inputs.2
    simp only [Inline.bitmapIntersects, if_pos isSmall, ensures_bind,
      ensures_loadLong, ensures_pure, atFirst, atSecond,
      Option.some.injEq, exists_eq_left']
    rw [decide_not, Bool.not_eq_true', ← Bool.not_eq_true,
      decide_masked_eq_zero positive fits isWord, not_not]
    simp [combinedBits]
  case subset src1 src2 =>
    refine iff_of_true (samePath_of_truth rfl rfl rfl ?_
      (ensures_bitmapSubset inputs.1 inputs.2)) trivial
    rw [Inline.bitmapSubset, if_pos isSmall]
    refine (ensures_testBoth bitwise_andnot positive fits inputs.1
      inputs.2).weaken ?_
    intro value _ isValue
    rw [isValue]
    simp [combinedBits]
  case weight src =>
    exact iff_of_true (samePath_weight positive fits inputs) trivial
  case complement dst src =>
    exact iff_of_true (samePath_complement positive fits outputs inputs)
      trivial
  case shiftLeft dst src n =>
    exact iff_of_true
      (samePath_shiftLeft positive fits inWord outputs inputs) trivial
  case shiftRight dst src n =>
    exact samePath_shiftRight_iff positive fits inWord outputs inputs
  case and dst src1 src2 =>
    refine iff_of_true (samePath_combineAnyWord bitwise_and positive fits
      outputs inputs.1 inputs.2 rfl ?_ rfl) trivial
    rw [WordOperation.inline, Inline.bitmapAnd, if_pos isSmall]
  case or dst src1 src2 =>
    refine iff_of_true (samePath_combineWords bitwise_or positive fits
      outputs inputs.1 inputs.2 rfl ?_ rfl) trivial
    rw [WordOperation.inline, Inline.bitmapOr, if_pos isSmall]
  case xor dst src1 src2 =>
    refine iff_of_true (samePath_combineWords bitwise_xor positive fits
      outputs inputs.1 inputs.2 rfl ?_ rfl) trivial
    rw [WordOperation.inline, Inline.bitmapXor, if_pos isSmall]
  case andnot dst src1 src2 =>
    refine iff_of_true (samePath_combineAnyWord bitwise_andnot positive
      fits outputs inputs.1 inputs.2 rfl ?_ rfl) trivial
    rw [WordOperation.inline, Inline.bitmapAndnot, if_pos isSmall]

end Paths

section Samples

/-- A memory with a bitmap of one word. -/
def oneWord (word : BitVec 64) : CMemory where
  longs := .ofList [word]
  chars := .ofList []

theorem mapped_oneWord (word : BitVec 64) :
    (oneWord word).longs.Mapped 0 (bitsToLongs 4) :=
  Region.mapped_ofList (by simp [bitsToLongs])

/-- The unused bit 6 is not shifted into the used part. -/
theorem WordOperation.samePath_of_sample :
    (WordOperation.shiftRight 0 0 2).SamePath 4 (oneWord 0x4a) := by
  have inWord : (WordOperation.shiftRight 0 0 2).ShiftsInWord := by
    rw [WordOperation.ShiftsInWord]
    decide
  have noUnused :
      (WordOperation.shiftRight 0 0 2).ShiftsNoUnused 4
        (oneWord 0x4a) := by
    rw [WordOperation.ShiftsNoUnused]
    decide
  refine (WordOperation.samePath_iff (by decide) (by decide) inWord ?_
    ?_).mpr noUnused
  · simpa [WordOperation.inputs] using mapped_oneWord 0x4a
  · simpa [WordOperation.outputs] using mapped_oneWord 0x4a

/-- The unused bit 4 is shifted into the used part on the fast path only. -/
theorem WordOperation.not_samePath_of_sample :
    ¬(WordOperation.shiftRight 0 0 1).SamePath 4 (oneWord 0x10) := by
  rw [samePath_shiftRight_iff (by decide) (by decide) (by decide)
    (mapped_oneWord _) (mapped_oneWord _)]
  intro clear
  exact absurd (clear 3 (by decide) (by decide) (by decide)) (by decide)

end Samples

end LibKern.Bitmap
