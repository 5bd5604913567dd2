import LibKern.BitmapSpans

namespace LibKern.Bitmap

/-!
# `bitmap_set` and `bitmap_clear` touch exactly their range

Both functions only access the words that cover the range, and they have the
same effect as a loop of `set_bit` or `clear_bit` over the range.
-/

open Program

/-- The number of words that cover a range. -/
def coveringWords (start nr : Nat) : Nat :=
  if nr = 0 then 0 else (start + nr - 1) / 64 + 1 - start / 64

/-- The loop of `set_bit` over a range. -/
def setBits (map : Int) (start nr : Nat) : Program CMemory Unit :=
  countUp nr fun index => setBit (start + index) map

/-- The loop of `clear_bit` over a range. -/
def clearBits (map : Int) (start nr : Nat) : Program CMemory Unit :=
  countUp nr fun index => clearBit (start + index) map

/--
The bits from one position to another have this value, and nothing else was
changed.  Only some words from the first one on may have been written.
-/
structure RangeIs
    (memory : CMemory)
    (map : Int)
    (start finish words : Nat)
    (value : Bool)
    (after : CMemory) : Prop where
  inside :
    ∀ index, start ≤ index → index < finish →
      after.longs.bit map index = value
  elsewhere :
    ∀ index, index < start ∨ finish ≤ index →
      after.longs.bit map index = memory.longs.bit map index
  mapped : after.longs.Mapped (map + (start / 64 : Nat)) words
  outside :
    memory.longs.SameOutside after.longs (map + (start / 64 : Nat)) words
  chars : after.chars = memory.chars
  calls : after.calls = memory.calls

section Range

variable {memory : CMemory}
variable {map : Int}
variable {start finish nr words : Nat}
variable {value : Bool}

/-- The bits outside of the words that may have been written. -/
private theorem bit_outside
    {after : CMemory}
    {index : Nat}
    (outside :
      memory.longs.SameOutside after.longs (map + (start / 64 : Nat))
        words)
    (isOutside : index / 64 < start / 64 ∨ start / 64 + words ≤ index / 64) :
    after.longs.bit map index = memory.longs.bit map index := by
  apply Region.bit_congr
  apply outside
  omega

/-- There is only one state with this range. -/
theorem RangeIs.unique
    {after other : CMemory}
    (one : RangeIs memory map start finish words value after)
    (another : RangeIs memory map start finish words value other) :
    after = other := by
  have sameBits :
      ∀ index < words * 64,
        after.longs.bit (map + (start / 64 : Nat)) index =
          other.longs.bit (map + (start / 64 : Nat)) index := by
    intro index bound
    rw [Region.bit_drop, Region.bit_drop]
    by_cases inside :
        start ≤ start / 64 * 64 + index ∧
          start / 64 * 64 + index < finish
    · rw [one.inside _ inside.1 inside.2,
        another.inside _ inside.1 inside.2]
    · rw [one.elsewhere _ (by omega), another.elsewhere _ (by omega)]
  have outside :
      other.longs.SameOutside after.longs (map + (start / 64 : Nat))
        words := by
    intro address isOutside
    rw [one.outside address isOutside, another.outside address isOutside]
  refine CMemory.ext ?_ (one.chars.trans another.chars.symm)
    (one.calls.trans another.calls.symm)
  exact Region.eq_of_bits another.mapped one.mapped outside sameBits

/-- Setting a clear range and clearing it again leaves no trace. -/
theorem RangeIs.restores
    {between after : CMemory}
    (mapped : memory.longs.Mapped (map + (start / 64 : Nat)) words)
    (isValue :
      ∀ index, start ≤ index → index < finish →
        memory.longs.bit map index = value)
    (changed : RangeIs memory map start finish words (!value) between)
    (restored : RangeIs between map start finish words value after) :
    after = memory := by
  have fromMemory : RangeIs memory map start finish words value after := by
    refine ⟨restored.inside, ?_, restored.mapped,
      changed.outside.trans restored.outside,
      restored.chars.trans changed.chars,
      restored.calls.trans changed.calls⟩
    intro index isElsewhere
    rw [restored.elsewhere index isElsewhere,
      changed.elsewhere index isElsewhere]
  have already : RangeIs memory map start finish words value memory :=
    ⟨isValue, fun _ _ => rfl, mapped, .refl, rfl, rfl⟩
  exact fromMemory.unique already

section Change

variable {change : BitVec 64 → BitVec 64 → BitVec 64}
variable {onBits : Bool → Bool → Bool}

/-- The range may as well be counted from its first word on. -/
theorem changeSpan_eq :
    changeSpan change map start nr =
      changeSpan change (map + (start / 64 : Nat)) (start % 64) nr := by
  have noWord : start % 64 / 64 = 0 := by
    omega
  have sameEnd : (start % 64 + nr) % 64 = (start + nr) % 64 := by
    omega
  simp only [changeSpan, noWord, Nat.mod_mod, lastWordMask, sameEnd,
    Int.natCast_zero, Int.add_zero]

/-- Changing a word does not call `snprintf`. -/
private theorem preserves_calls_word
    (address : Int)
    (mask : BitVec 64)
    (calls : List (Int × Nat)) :
    (do
      let word ← loadLong address
      storeLong address (change word mask) :
        Program CMemory Unit).Preserves
      fun memory => memory.calls = calls := by
  refine (preserves_reads _).bind fun word => preserves_updates ?_
  intro before after same stored
  obtain ⟨_, -, rfl⟩ := Option.map_eq_some_iff.mp stored
  exact same

/-- Changing a range does not call `snprintf`. -/
private theorem preserves_calls_changeSpan
    (change : BitVec 64 → BitVec 64 → BitVec 64)
    (map : Int)
    (start nr : Nat)
    (calls : List (Int × Nat)) :
    (changeSpan change map start nr).Preserves
      fun memory => memory.calls = calls := by
  refine Preserves.bind (Preserves.loop ?_ _) ?_
  · intro vars
    refine .ite (fun _ => ?_) fun _ => preserves_pure _
    exact (preserves_reads _).bind fun word =>
      (preserves_updates fun before after same stored => by
        obtain ⟨_, -, rfl⟩ := Option.map_eq_some_iff.mp stored
        exact same).bind fun _ => preserves_pure _
  · intro vars
    exact .ite (fun _ => preserves_calls_word _ _ calls)
      fun _ => preserves_pure _

/-- The words that cover a range that is not empty. -/
theorem coveringWords_eq
    (nonempty : nr ≠ 0) :
    coveringWords start nr = bitsToLongs (start % 64 + nr) := by
  simp only [coveringWords, nonempty, ↓reduceIte, bitsToLongs]
  omega

/-- Nothing happens to an empty range. -/
theorem ensures_changeSpan_empty
    {post : Unit → CMemory → Prop} :
    (changeSpan change map start 0).Ensures memory post ↔
      post () memory := by
  have noWord : ¬0 ≥ 64 - start % 64 := by
    omega
  rw [changeSpan, ensures_bind, ensures_loop, spanWord, if_neg noWord,
    ensures_pure]
  exact ensures_onlyIf_of_not (by simp)

/-- `bitmap_set` and `bitmap_clear` give the bits of a range a value. -/
theorem ensures_changeSpan_rangeIs
    (bitwise : Bitwise change onBits)
    (neutral : ∀ bit, onBits bit false = bit)
    (gives : ∀ bit, onBits bit true = value)
    (mapped :
      memory.longs.Mapped (map + (start / 64 : Nat))
        (coveringWords start nr)) :
    (changeSpan change map start nr).Ensures memory fun _ =>
      RangeIs memory map start (start + nr) (coveringWords start nr)
        value := by
  by_cases isEmpty : nr = 0
  · subst isEmpty
    rw [ensures_changeSpan_empty]
    exact ⟨by omega, fun _ _ => rfl, mapped, .refl, rfl, rfl⟩
  · have calls :=
      preserves_calls_changeSpan change map start nr memory.calls memory
        rfl
    rw [coveringWords_eq isEmpty] at mapped ⊢
    have changed := ensures_changeSpan bitwise neutral mapped le_rfl
    rw [← changeSpan_eq] at changed
    refine (changed.both calls).weaken ?_
    intro _ after result
    obtain ⟨becomes, sameCalls⟩ := result
    have isBit
        {index : Nat}
        (reached : start / 64 ≤ index / 64)
        (bound : index / 64 < start / 64 + bitsToLongs (start % 64 + nr)) :
        after.longs.bit map index =
          onBits (memory.longs.bit map index)
            (decide (start ≤ index ∧ index < start + nr)) := by
      obtain ⟨place, rfl⟩ := Nat.exists_eq_add_of_le
        (by omega : start / 64 * 64 ≤ index)
      have isValue := becomes.isValue place (by omega)
      rw [spanBits, Region.bit_drop, Region.bit_drop] at isValue
      rw [isValue]
      congr 1
      exact decide_eq_decide.mpr (by omega)
    refine ⟨?_, ?_, becomes.mapped, becomes.outside, becomes.chars,
      sameCalls⟩
    · intro index above below
      have bound :
          index / 64 < start / 64 + bitsToLongs (start % 64 + nr) := by
        simp only [bitsToLongs]
        omega
      rw [isBit (by omega) bound, decide_eq_true ⟨above, below⟩, gives]
    · intro index isElsewhere
      by_cases covered :
          start / 64 ≤ index / 64 ∧
            index / 64 < start / 64 + bitsToLongs (start % 64 + nr)
      · rw [isBit covered.1 covered.2, decide_eq_false (by omega),
          neutral]
      · exact bit_outside becomes.outside (by omega)

/-- Changing one bit after the others of a range. -/
private theorem RangeIs.next
    {before : CMemory}
    {position : Nat}
    {word : BitVec 64}
    (bitwise : Bitwise change onBits)
    (neutral : ∀ bit, onBits bit false = bit)
    (gives : ∀ bit, onBits bit true = value)
    (range : RangeIs memory map start position words value before)
    (reached : start ≤ position)
    (covered : position / 64 < start / 64 + words)
    (atWord : before.longs.cell (map + (position / 64 : Nat)) = some word) :
    RangeIs memory map start (position + 1) words value
      { before with
        longs :=
          before.longs.write (map + (position / 64 : Nat))
            (change word ((1 : BitVec 64) <<< (position % 64))) } := by
  have isBit (index : Nat) :
      (before.longs.write (map + (position / 64 : Nat))
          (change word ((1 : BitVec 64) <<< (position % 64)))).bit map
            index =
        onBits (before.longs.bit map index)
          (decide (index = position)) := by
    rw [Region.bit_write]
    split
    · rename_i inWord
      rw [bitwise _ _ _ (by omega), getLsbD_singleBit (by omega),
        ← Region.bit_of_cell atWord inWord]
      congr 1
      exact decide_eq_decide.mpr (by omega)
    · rename_i otherWord
      rw [decide_eq_false (by omega), neutral]
  have isWord :
      map + ((position / 64 : Nat) : Int) =
        map + ((start / 64 : Nat) : Int) +
          ((position / 64 - start / 64 : Nat) : Int) := by
    omega
  refine ⟨?_, ?_, range.mapped.write _ _, ?_, range.chars, range.calls⟩
  · intro index above below
    rw [isBit]
    by_cases isPosition : index = position
    · rw [decide_eq_true isPosition, gives]
    · rw [decide_eq_false isPosition, neutral,
        range.inside index above (by omega)]
  · intro index isElsewhere
    rw [isBit, decide_eq_false (by omega), neutral,
      range.elsewhere index (by omega)]
  · rw [isWord]
    exact range.outside.trans (.write (by omega) _)

/-- A loop over the bits of a range gives them a value. -/
theorem ensures_changeBits
    (bitwise : Bitwise change onBits)
    (neutral : ∀ bit, onBits bit false = bit)
    (gives : ∀ bit, onBits bit true = value)
    (mapped :
      memory.longs.Mapped (map + (start / 64 : Nat))
        (coveringWords start nr)) :
    (countUp nr fun index => do
      let word ← loadLong (map + ((start + index) / 64 : Nat))
      storeLong (map + ((start + index) / 64 : Nat))
        (change word
          ((1 : BitVec 64) <<< ((start + index) % 64)))).Ensures memory
      fun _ =>
        RangeIs memory map start (start + nr) (coveringWords start nr)
          value := by
  refine ensures_countUp
    (fun done =>
      RangeIs memory map start (start + done) (coveringWords start nr)
        value)
    ⟨by omega, fun _ _ => rfl, mapped, .refl, rfl, rfl⟩ ?_
  intro done below before range
  have covered :
      (start + done) / 64 < start / 64 + coveringWords start nr := by
    simp only [coveringWords, show nr ≠ 0 by omega, ↓reduceIte]
    omega
  obtain ⟨word, atWord⟩ :=
    range.mapped ((start + done) / 64 - start / 64) (by omega)
  have isWord :
      map + ((start / 64 : Nat) : Int) +
          (((start + done) / 64 - start / 64 : Nat) : Int) =
        map + (((start + done) / 64 : Nat) : Int) := by
    omega
  rw [isWord] at atWord
  simp only [ensures_bind, ensures_loadLong, ensures_storeLong, atWord,
    Option.some.injEq, exists_eq_left', exists_eq', true_and]
  exact range.next bitwise neutral gives (Nat.le_add_right _ _) covered
    atWord

end Change

/-- `bitmap_set` sets the bits of a range. -/
theorem ensures_bitmapSet
    (mapped :
      memory.longs.Mapped (map + (start / 64 : Nat))
        (coveringWords start nr)) :
    (bitmapSet map start nr).Ensures memory fun _ =>
      RangeIs memory map start (start + nr) (coveringWords start nr)
        true :=
  ensures_changeSpan_rangeIs bitwise_or (by simp) (by simp) mapped

/-- `bitmap_clear` clears the bits of a range. -/
theorem ensures_bitmapClear
    (mapped :
      memory.longs.Mapped (map + (start / 64 : Nat))
        (coveringWords start nr)) :
    (bitmapClear map start nr).Ensures memory fun _ =>
      RangeIs memory map start (start + nr) (coveringWords start nr)
        false :=
  ensures_changeSpan_rangeIs bitwise_andnot (by simp) (by simp) mapped

/-- The loop of `set_bit` sets the bits of a range. -/
theorem ensures_setBits
    (mapped :
      memory.longs.Mapped (map + (start / 64 : Nat))
        (coveringWords start nr)) :
    (setBits map start nr).Ensures memory fun _ =>
      RangeIs memory map start (start + nr) (coveringWords start nr)
        true :=
  ensures_changeBits bitwise_or (by simp) (by simp) mapped

/-- The loop of `clear_bit` clears the bits of a range. -/
theorem ensures_clearBits
    (mapped :
      memory.longs.Mapped (map + (start / 64 : Nat))
        (coveringWords start nr)) :
    (clearBits map start nr).Ensures memory fun _ =>
      RangeIs memory map start (start + nr) (coveringWords start nr)
        false :=
  ensures_changeBits bitwise_andnot (by simp) (by simp) mapped

/--
`bitmap_set` and `bitmap_clear` change exactly the bits of their range, as the
loops of `set_bit` and `clear_bit` do.  Only the words that cover the range have
to exist.
-/
theorem bitmapSet_bitmapClear_exact
    (mapped :
      memory.longs.Mapped (map + (start / 64 : Nat))
        (coveringWords start nr)) :
    (∃ after,
      (bitmapSet map start nr).Returns memory () after ∧
        (setBits map start nr).Returns memory () after ∧
        RangeIs memory map start (start + nr) (coveringWords start nr)
          true after) ∧
      (∃ after,
        (bitmapClear map start nr).Returns memory () after ∧
          (clearBits map start nr).Returns memory () after ∧
          RangeIs memory map start (start + nr) (coveringWords start nr)
            false after) ∧
      ((∀ index, start ≤ index → index < start + nr →
          memory.longs.bit map index = false) →
        (do
          bitmapSet map start nr
          bitmapClear map start nr).Ensures memory fun _ after =>
            after = memory) := by
  refine ⟨?_, ?_, ?_⟩
  · obtain ⟨_, after, returned, range⟩ := ensures_bitmapSet mapped
    obtain ⟨_, other, otherReturned, otherRange⟩ := ensures_setBits mapped
    obtain rfl := range.unique otherRange
    exact ⟨after, returned, otherReturned, range⟩
  · obtain ⟨_, after, returned, range⟩ := ensures_bitmapClear mapped
    obtain ⟨_, other, otherReturned, otherRange⟩ :=
      ensures_clearBits mapped
    obtain rfl := range.unique otherRange
    exact ⟨after, returned, otherReturned, range⟩
  · intro isClear
    rw [ensures_bind]
    refine (ensures_bitmapSet mapped).weaken ?_
    intro _ between changed
    refine (ensures_bitmapClear changed.mapped).weaken ?_
    intro _ after restored
    exact RangeIs.restores mapped isClear changed restored

/-- Two words that are clear. -/
def clearWords : CMemory where
  longs := .ofList [0, 0]
  chars := .ofList []

/-- Setting and clearing a range that covers the end of a word. -/
theorem bitmapSet_bitmapClear_of_sample :
    (∃ after,
      (bitmapSet 0 60 10).Returns clearWords () after ∧
        RangeIs clearWords 0 60 70 2 true after) ∧
      (do
        bitmapSet 0 60 10
        bitmapClear 0 60 10).Ensures clearWords fun _ after =>
          after = clearWords := by
  have mapped :
      clearWords.longs.Mapped (0 + (60 / 64 : Nat))
        (coveringWords 60 10) :=
    Region.mapped_ofList (by decide)
  have isClear : ∀ index < 70, clearWords.longs.bit 0 index = false := by
    decide
  obtain ⟨⟨after, returned, -, range⟩, -, restores⟩ :=
    bitmapSet_bitmapClear_exact mapped
  exact ⟨⟨after, returned, range⟩,
    restores fun index _ below => isClear index below⟩

end Range

end LibKern.Bitmap
