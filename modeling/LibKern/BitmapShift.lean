import LibKern.BitScan
import LibKern.BitmapSource

namespace LibKern.Bitmap

/-!
# Clearing and shifting bitmaps

`__bitmap_shift_left` goes down from the last word, so that it may work in
place: the words it still has to read are below the ones it has written.
-/

open Program

section Words

/-- The mask `(1UL << left) - 1`. -/
theorem getLsbD_lowMask
    {left index : Nat}
    (bound : left < 64) :
    (((1 : BitVec 64) <<< left) - 1).getLsbD index =
      decide (index < left) := by
  have small : 2 ^ left < 2 ^ 64 :=
    Nat.pow_lt_pow_right (by omega) bound
  have value :
      (((1 : BitVec 64) <<< left) - 1).toNat = 2 ^ left - 1 := by
    have positive := Nat.two_pow_pos left
    have shifted : ((1 : BitVec 64) <<< left).toNat = 2 ^ left := by
      simpa [Nat.shiftLeft_eq] using small
    rw [BitVec.toNat_sub_of_le, shifted]
    · rfl
    · rw [BitVec.le_def, shifted]
      exact positive
  rw [BitVec.getLsbD, value, Nat.testBit_two_pow_sub_one]

/-- The word that two neighbouring words shift into. -/
theorem getLsbD_shiftedWord
    {lower upper : BitVec 64}
    {rem index : Nat}
    (bound : rem < 64)
    (inside : index < 64) :
    ((lower >>> (64 - rem)) ||| (upper <<< rem)).getLsbD index =
      if index < rem then lower.getLsbD (64 - rem + index)
      else upper.getLsbD (index - rem) := by
  simp only [BitVec.getLsbD_or, BitVec.getLsbD_ushiftRight,
    BitVec.getLsbD_shiftLeft, inside, decide_true, Bool.true_and]
  split
  · rename_i low
    simp [low]
  · rename_i high
    have beyond : lower.getLsbD (64 - rem + index) = false :=
      BitVec.getLsbD_of_ge _ _ (by omega)
    simp [high, beyond]

end Words

section Zero

variable {memory : CMemory} {dst : Int} {nbits : Nat}

/-- `bitmap_zero` clears all bits, also the unused ones. -/
theorem ensures_bitmapZero
    (mapped : memory.longs.Mapped dst (bitsToLongs nbits)) :
    (bitmapZero dst nbits).Ensures memory fun _ after =>
      after.chars = memory.chars ∧
        after.longs.Mapped dst (bitsToLongs nbits) ∧
        memory.longs.SameOutside after.longs dst (bitsToLongs nbits) ∧
        ∀ index < bitsToLongs nbits * 64,
          after.longs.bit dst index = false := by
  refine (ensures_clearLongs mapped).weaken ?_
  intro _ after cleared
  obtain ⟨sameChars, stillMapped, same, isZero⟩ := cleared
  refine ⟨sameChars, stillMapped, same, ?_⟩
  intro index bound
  rw [Region.bit_of_cell (isZero (index / 64) (by omega)) rfl]
  simp

end Zero

section ShiftLeft

variable {memory before : CMemory} {dst src : Int} {shift bits : Nat}

/-- A bit of a bitmap that is shifted left. -/
def shiftedLeft
    (longs : Region (BitVec 64))
    (src : Int)
    (shift bits index : Nat) : Bool :=
  decide (shift ≤ index ∧ index < bits) && longs.bit src (index - shift)

/-- The loop of `__bitmap_shift_left` still has to do this many words. -/
private structure ShiftingLeft
    (memory : CMemory)
    (dst src : Int)
    (shift bits remaining : Nat)
    (after : CMemory) : Prop where
  chars : after.chars = memory.chars
  mapped : after.longs.Mapped dst (bitsToLongs bits)
  outside :
    memory.longs.SameOutside after.longs dst (bitsToLongs bits)
  unread :
    ∀ word < remaining,
      after.longs.cell (src + word) = memory.longs.cell (src + word)
  done :
    ∀ index,
      (remaining + shift / 64) * 64 ≤ index →
      index < bitsToLongs bits * 64 →
      after.longs.bit dst index =
        shiftedLeft memory.longs src shift bits index

/-- The word that the loop of `__bitmap_shift_left` computes. -/
private theorem getLsbD_bitmapShiftLeftWord
    {longs : Region (BitVec 64)}
    {k : Nat}
    {lower upper : BitVec 64}
    (isLower :
      ∀ index < 64,
        lower.getLsbD index =
          (decide (shift % 64 ≠ 0 ∧ k > 0) &&
            longs.bit src ((k - 1) * 64 + index)))
    (isUpper :
      ∀ index < 64, k * 64 + index < bits →
        upper.getLsbD index = longs.bit src (k * 64 + index))
    {index : Nat}
    (bound : index < 64)
    (used : (k + shift / 64) * 64 + index < bits) :
    ((lower >>> (64 - shift % 64)) |||
        (upper <<< (shift % 64))).getLsbD index =
      shiftedLeft longs src shift bits
        ((k + shift / 64) * 64 + index) := by
  have split := Nat.div_add_mod shift 64
  have small : shift % 64 < 64 := by
    omega
  rw [getLsbD_shiftedWord small bound, shiftedLeft]
  by_cases low : index < shift % 64
  · rw [if_pos low, isLower _ (by omega)]
    by_cases first : k = 0
    · have before : ¬shift ≤ (k + shift / 64) * 64 + index := by
        omega
      have notLater : ¬(shift % 64 ≠ 0 ∧ k > 0) := by
        omega
      simp only [notLater, before, false_and, decide_false,
        Bool.false_and]
    · have reached : shift ≤ (k + shift / 64) * 64 + index := by
        omega
      have later : shift % 64 ≠ 0 ∧ k > 0 := by
        omega
      have source :
          (k - 1) * 64 + (64 - shift % 64 + index) =
            (k + shift / 64) * 64 + index - shift := by
        omega
      rw [decide_eq_true later, source,
        decide_eq_true (And.intro reached used)]
  · have reached : shift ≤ (k + shift / 64) * 64 + index := by
      omega
    have source :
        k * 64 + (index - shift % 64) =
          (k + shift / 64) * 64 + index - shift := by
      omega
    rw [if_neg low, isUpper _ (by omega) (by omega)]
    simp only [reached, used, source, and_self, decide_true,
      Bool.true_and]

/-- The word below, if its bits are needed. -/
private theorem ensures_bitmapShiftLower
    {k : Nat}
    (mappedSrc : before.longs.Mapped src (k + 1)) :
    (bitmapShiftLower src shift k).Ensures before fun lower after =>
      after = before ∧
        ∀ index < 64,
          lower.getLsbD index =
            (decide (shift % 64 ≠ 0 ∧ k > 0) &&
              before.longs.bit src ((k - 1) * 64 + index)) := by
  unfold bitmapShiftLower
  split
  · rename_i reads
    obtain ⟨lower, atLower⟩ := mappedSrc (k - 1) (by omega)
    rw [ensures_loadLong]
    refine ⟨lower, atLower, rfl, ?_⟩
    intro index bound
    rw [decide_eq_true reads, Bool.true_and]
    exact Region.getLsbD_of_cell atLower bound
  · rename_i reads
    rw [ensures_pure]
    refine ⟨rfl, ?_⟩
    intro index bound
    simp [reads]

/-- The loop of `__bitmap_shift_left` writes one word. -/
theorem ensures_bitmapShiftLeftWord
    {k : Nat}
    (mappedDst : before.longs.Mapped dst (bitsToLongs bits))
    (mappedSrc : before.longs.Mapped src (k + 1))
    (inside : k + shift / 64 < bitsToLongs bits) :
    (bitmapShiftLeftWord dst src shift bits k).Ensures before
      fun _ after =>
        ∃ word : BitVec 64,
          after =
              { before with
                longs :=
                  before.longs.write (dst + (k + shift / 64 : Nat))
                    word } ∧
            ∀ index < 64,
              word.getLsbD index =
                shiftedLeft before.longs src shift bits
                  ((k + shift / 64) * 64 + index) := by
  obtain ⟨content, atUpper⟩ := mappedSrc k (by omega)
  obtain ⟨old, atDst⟩ := mappedDst _ inside
  have size :
      bits ≤ bitsToLongs bits * 64 ∧
        (bitsToLongs bits - 1) * 64 < bits ∧
        (bits % 64 ≠ 0 → (bitsToLongs bits - 1) * 64 + bits % 64 = bits) ∧
        (bits % 64 = 0 → bitsToLongs bits * 64 = bits) := by
    simp only [bitsToLongs] at inside ⊢
    omega
  rw [bitmapShiftLeftWord]
  dsimp only
  rw [ensures_bind]
  refine (ensures_bitmapShiftLower mappedSrc).weaken ?_
  intro lower same isLower
  obtain ⟨rfl, isLower⟩ := isLower
  simp only [ensures_bind, ensures_loadLong, ensures_storeLong, atUpper,
    Option.some.injEq, exists_eq_left', atDst, exists_eq', true_and]
  generalize isUpperDef :
    (if bits % 64 ≠ 0 ∧ k = bitsToLongs bits - 1 then
      content &&& (((1 : BitVec 64) <<< (bits % 64)) - 1)
    else content) = upper
  have isUpper :
      ∀ index < 64, k * 64 + index < bits →
        upper.getLsbD index = same.longs.bit src (k * 64 + index) := by
    intro index bound used
    have atIndex := Region.getLsbD_of_cell atUpper bound
    rw [← isUpperDef, ← atIndex]
    split
    · have low : index < bits % 64 := by
        omega
      rw [BitVec.getLsbD_and, getLsbD_lowMask (by omega),
        decide_eq_true low, Bool.and_true]
    · rfl
  have computed
      {index : Nat}
      (bound : index < 64)
      (used : (k + shift / 64) * 64 + index < bits) :=
    getLsbD_bitmapShiftLeftWord isLower isUpper bound used
  by_cases last : bits % 64 ≠ 0 ∧ k + shift / 64 = bitsToLongs bits - 1
  · refine (ensures_onlyIf_of last).mpr ?_
    simp only [ensures_bind, ensures_loadLong, ensures_storeLong,
      Region.write_cell_same, Option.some.injEq, exists_eq_left',
      exists_eq', true_and, Region.write_write]
    refine ⟨_, rfl, ?_⟩
    intro index bound
    rw [BitVec.getLsbD_and, getLsbD_lowMask (by omega)]
    by_cases used : (k + shift / 64) * 64 + index < bits
    · rw [computed bound used, decide_eq_true (by omega), Bool.and_true]
    · rw [decide_eq_false (by omega), Bool.and_false, shiftedLeft,
        decide_eq_false (by omega), Bool.false_and]
  · refine (ensures_onlyIf_of_not last).mpr ⟨_, rfl, ?_⟩
    intro index bound
    apply computed bound
    omega

/-- One round of the loop of `__bitmap_shift_left`. -/
private theorem ShiftingLeft.step
    {k : Nat}
    (mappedSrc : memory.longs.Mapped src (bitsToLongs bits))
    (apart :
      dst = src ∨ dst + bitsToLongs bits ≤ src ∨
        src + bitsToLongs bits ≤ dst)
    (inside : k + shift / 64 < bitsToLongs bits)
    (shifting :
      ShiftingLeft memory dst src shift bits (k + 1) before) :
    (bitmapShiftLeftWord dst src shift bits k).Ensures before fun _ =>
      ShiftingLeft memory dst src shift bits k := by
  obtain ⟨sameChars, mappedDst, outside, unread, done⟩ := shifting
  have stillMapped : before.longs.Mapped src (k + 1) := by
    intro word bound
    obtain ⟨content, atWord⟩ := mappedSrc word (by omega)
    exact ⟨content, (unread word bound).trans atWord⟩
  refine (ensures_bitmapShiftLeftWord mappedDst stillMapped
    inside).weaken ?_
  intro _ after written
  obtain ⟨word, rfl, isWord⟩ := written
  have sameSource
      {index : Nat}
      (bound : index < (k + 1) * 64) :
      before.longs.bit src index = memory.longs.bit src index :=
    Region.bit_congr (unread (index / 64) (by omega))
  refine ⟨sameChars, mappedDst.write _ _,
    outside.trans (.write inside _), ?_, ?_⟩
  · intro other bound
    rw [Region.write_cell_of_ne _ (by omega)]
    exact unread other (by omega)
  · intro index reached bound
    rw [Region.bit_write]
    split
    · rename_i inWord
      have position :
          (k + shift / 64) * 64 + index % 64 = index := by
        omega
      rw [isWord _ (by omega), position, shiftedLeft, shiftedLeft]
      rw [sameSource (by omega)]
    · exact done index (by omega) bound

/-- `__bitmap_shift_left` shifts the bits and clears the unused ones. -/
theorem ensures_bitmapShiftLeft
    (mappedDst : memory.longs.Mapped dst (bitsToLongs bits))
    (mappedSrc : memory.longs.Mapped src (bitsToLongs bits))
    (apart :
      dst = src ∨ dst + bitsToLongs bits ≤ src ∨
        src + bitsToLongs bits ≤ dst)
    (fits : shift / 64 ≤ bitsToLongs bits) :
    (bitmapShiftLeft dst src shift bits).Ensures memory fun _ after =>
      after.chars = memory.chars ∧
        after.longs.Mapped dst (bitsToLongs bits) ∧
        memory.longs.SameOutside after.longs dst (bitsToLongs bits) ∧
        ∀ index < bitsToLongs bits * 64,
          after.longs.bit dst index =
            shiftedLeft memory.longs src shift bits index := by
  have start :
      ShiftingLeft memory dst src shift bits
        (bitsToLongs bits - shift / 64) memory :=
    ⟨rfl, mappedDst, .refl, fun _ _ => rfl, by omega⟩
  rw [bitmapShiftLeft, ensures_bind]
  refine (ensures_countDown _ start fun k bound before shifting =>
    shifting.step mappedSrc apart (by omega)).weaken ?_
  intro _ shifted loop
  obtain ⟨sameChars, mapped, outside, -, done⟩ := loop
  by_cases whole : shift / 64 = 0
  · refine (ensures_onlyIf_of_not (by simpa using whole)).mpr ?_
    refine ⟨sameChars, mapped, outside, ?_⟩
    intro index bound
    exact done index (by omega) bound
  · refine (ensures_onlyIf_of whole).mpr ?_
    refine (ensures_clearLongs (mapped.mono fits)).weaken ?_
    intro _ after cleared
    obtain ⟨clearedChars, -, clearedOutside, isZero⟩ := cleared
    have sameAbove
        {word : Nat}
        (above : shift / 64 ≤ word) :
        after.longs.cell (dst + word) = shifted.longs.cell (dst + word) :=
      clearedOutside _ (.inr (by omega))
    refine ⟨clearedChars.trans sameChars, ?_, ?_, ?_⟩
    · intro word bound
      by_cases low : word < shift / 64
      · exact ⟨0, isZero word low⟩
      · rw [sameAbove (by omega)]
        exact mapped word bound
    · intro address isOutside
      rw [clearedOutside address (by omega)]
      exact outside address isOutside
    · intro index bound
      by_cases low : index / 64 < shift / 64
      · rw [Region.bit_of_cell (isZero _ low) rfl, shiftedLeft,
          decide_eq_false (by omega)]
        simp
      · rw [Region.bit_congr (sameAbove (by omega))]
        exact done index (by omega) bound

end ShiftLeft

end LibKern.Bitmap
