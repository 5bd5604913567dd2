import LibKern.BitmapOps

namespace LibKern.Bitmap

/-!
# Filling, copying and changing ranges of bits

`bitmap_set` and `bitmap_clear` change the words that a range covers, with one
mask for the first and one for the last word.
-/

open Program

section Span

variable {memory : CMemory}
variable {map : Int}
variable {bits start nr : Nat}
variable {change : BitVec 64 → BitVec 64 → BitVec 64}
variable {onBits : Bool → Bool → Bool}

/-- The bits of a bitmap when a range was changed up to a position. -/
def spanBits
    (onBits : Bool → Bool → Bool)
    (memory : CMemory)
    (map : Int)
    (start current index : Nat) : Bool :=
  onBits (memory.longs.bit map index)
    (decide (start ≤ index ∧ index < current))

/-- The variables of the loop at a position. -/
def spanVars (map : Int) (size current : Nat) : SpanVars where
  p := map + (current / 64 : Nat)
  nr := size - current
  count := 64 - current % 64
  mask := (~~~0 : BitVec 64) <<< (current % 64)

/-- The mask `~0UL << offset`. -/
theorem getLsbD_highMask
    {offset index : Nat}
    (inside : index < 64) :
    ((~~~0 : BitVec 64) <<< offset).getLsbD index =
      decide (offset ≤ index) := by
  rw [BitVec.getLsbD_shiftLeft, BitVec.getLsbD_not]
  by_cases reached : offset ≤ index
  · have inMask : index - offset < 64 := by
      omega
    simp [reached, inside, inMask, Nat.not_lt.mpr reached]
  · simp [reached, Nat.not_le.mp reached]

/-- Change the part of a range that is in the current word. -/
theorem Becomes.span
    {before : CMemory}
    {current next : Nat}
    {word mask : BitVec 64}
    (bitwise : Bitwise change onBits)
    (neutral : ∀ bit, onBits bit false = bit)
    (becomes :
      Becomes memory map bits (spanBits onBits memory map start current)
        before)
    (reached : start ≤ current)
    (inside : current / 64 < bitsToLongs bits)
    (sameWord : next ≤ (current / 64 + 1) * 64)
    (further : current ≤ next)
    (atWord : before.longs.cell (map + (current / 64 : Nat)) = some word)
    (isMask :
      ∀ index, index / 64 = current / 64 →
        mask.getLsbD (index % 64) =
          decide (current ≤ index ∧ index < next)) :
    Becomes memory map bits (spanBits onBits memory map start next)
      { before with
        longs :=
          before.longs.write (map + (current / 64 : Nat))
            (change word mask) } := by
  refine ⟨becomes.chars, becomes.mapped.write _ _,
    becomes.outside.trans (.write inside _), ?_⟩
  intro index bound
  have value := becomes.isValue index bound
  rw [spanBits] at value
  rw [Region.bit_write, spanBits]
  split
  · rename_i inWord
    rw [bitwise _ _ _ (by omega), isMask index inWord,
      ← Region.bit_of_cell atWord inWord, value]
    by_cases earlier : index < current
    · rw [decide_eq_false (by omega : ¬(current ≤ index ∧ index < next)),
        neutral]
      congr 1
      exact decide_eq_decide.mpr (by omega)
    · rw [decide_eq_false (by omega : ¬(start ≤ index ∧ index < current)),
        neutral]
      congr 1
      exact decide_eq_decide.mpr (by omega)
  · rename_i otherWord
    rw [value]
    congr 1
    exact decide_eq_decide.mpr (by omega)

/-- The loop of `bitmap_set` and `bitmap_clear`. -/
private theorem ensures_spanWords
    {before : CMemory}
    {size current : Nat}
    (bitwise : Bitwise change onBits)
    (neutral : ∀ bit, onBits bit false = bit)
    (fits : size ≤ bits)
    (becomes :
      Becomes memory map bits (spanBits onBits memory map start current)
        before)
    (reached : start ≤ current)
    (atMost : current ≤ size) :
    (loop (spanWord change) (spanVars map size current)).Ensures before
      fun vars after =>
        ∃ last,
          vars = spanVars map size last ∧ start ≤ last ∧ last ≤ size ∧
            size < (last / 64 + 1) * 64 ∧
            Becomes memory map bits
              (spanBits onBits memory map start last) after := by
  induction remaining : size - current using Nat.strongRecOn
    generalizing current before with
  | ind remaining inductionHypothesis =>
      rw [ensures_loop, spanWord]
      by_cases enough : size - current ≥ 64 - current % 64
      · rw [if_pos (by exact enough)]
        have inside : current / 64 < bitsToLongs bits := by
          simp only [bitsToLongs]
          omega
        obtain ⟨word, atWord⟩ := becomes.mapped _ inside
        have atP :
            before.longs.cell (spanVars map size current).p = some word :=
          atWord
        simp only [ensures_bind, ensures_loadLong, ensures_storeLong,
          ensures_pure, atP, Option.some.injEq, exists_eq_left',
          exists_eq', true_and]
        have isMask :
            ∀ index, index / 64 = current / 64 →
              ((~~~0 : BitVec 64) <<< (current % 64)).getLsbD
                  (index % 64) =
                decide (current ≤ index ∧
                  index < (current / 64 + 1) * 64) := by
          intro index inWord
          rw [getLsbD_highMask (by omega)]
          exact decide_eq_decide.mpr (by omega)
        have stored :=
          becomes.span bitwise neutral reached inside le_rfl (by omega)
            atWord isMask
        have following :=
          inductionHypothesis (size - (current / 64 + 1) * 64) (by omega)
            stored (by omega) (by omega) rfl
        have isNext :
            spanVars map size ((current / 64 + 1) * 64) =
              ⟨map + (current / 64 : Nat) + 1,
                size - current - (64 - current % 64), 64, ~~~0⟩ := by
          have word : (current / 64 + 1) * 64 / 64 = current / 64 + 1 := by
            omega
          have offset : (current / 64 + 1) * 64 % 64 = 0 := by
            omega
          rw [spanVars, word, offset, SpanVars.mk.injEq]
          refine ⟨by omega, by omega, rfl, ?_⟩
          simp
        rw [isNext] at following
        exact following
      · rw [if_neg (by exact enough)]
        exact ensures_pure.mpr ⟨current, rfl, reached, atMost, by omega,
          becomes⟩

/-- `bitmap_set` and `bitmap_clear` change the bits of a range. -/
theorem ensures_changeSpan
    (bitwise : Bitwise change onBits)
    (neutral : ∀ bit, onBits bit false = bit)
    (mapped : memory.longs.Mapped map (bitsToLongs bits))
    (fits : start + nr ≤ bits) :
    (changeSpan change map start nr).Ensures memory fun _ =>
      Becomes memory map bits
        (spanBits onBits memory map start (start + nr)) := by
  have started :
      Becomes memory map bits (spanBits onBits memory map start start)
        memory := by
    refine ⟨rfl, mapped, .refl, fun index _ => ?_⟩
    rw [spanBits, decide_eq_false (by omega), neutral]
  have isStart :
      spanVars map (start + nr) start =
        ⟨map + (start / 64 : Nat), nr, 64 - start % 64,
          (~~~0 : BitVec 64) <<< (start % 64)⟩ := by
    rw [spanVars, Nat.add_sub_cancel_left]
  rw [changeSpan, ensures_bind, ← isStart]
  refine (ensures_spanWords bitwise neutral fits started le_rfl
    (by omega)).weaken ?_
  intro vars before result
  obtain ⟨last, rfl, reached, atMost, inWord, becomes⟩ := result
  by_cases isDone : last = start + nr
  · rw [ensures_onlyIf_of_not (by simp [spanVars, isDone])]
    rw [isDone] at becomes
    exact becomes
  · have inside : last / 64 < bitsToLongs bits := by
      simp only [bitsToLongs]
      omega
    obtain ⟨word, atWord⟩ := becomes.mapped _ inside
    rw [ensures_onlyIf_of (by simp only [spanVars]; omega)]
    simp only [spanVars, ensures_bind, ensures_loadLong,
      ensures_storeLong, atWord, Option.some.injEq, exists_eq_left',
      exists_eq', true_and]
    refine becomes.span bitwise neutral reached inside (by omega) atMost
      atWord ?_
    intro index sameWord
    rw [BitVec.getLsbD_and, getLsbD_highMask (by omega),
      getLsbD_lastWordMask (by omega), ← Bool.decide_and]
    exact decide_eq_decide.mpr (by omega)

end Span

section Copy

variable {memory : CMemory} {dst src : Int} {nbits : Nat}

/-- `bitmap_copy` copies all bits. -/
theorem ensures_bitmapCopy
    (mapped : memory.longs.Mapped dst (bitsToLongs nbits))
    (source : memory.longs.Mapped src (bitsToLongs nbits))
    (apart : SameOrApart dst src (bitsToLongs nbits)) :
    (Inline.bitmapCopy false dst src nbits).Ensures memory fun _ =>
      Becomes memory dst nbits (memory.longs.bit src) := by
  rw [Inline.bitmapCopy, if_neg (by simp [Inline.smallConstNbits])]
  refine (ensures_countUp
    (fun done =>
      Storing memory dst (bitsToLongs nbits) done (memory.longs.bit src))
    (.start mapped) ?_).weaken fun _ after storing => storing.becomes
  intro done below before storing
  obtain ⟨word, atWord, isWord⟩ :=
    storing.exists_source apart source le_rfl below
  simp only [ensures_bind, ensures_loadLong, ensures_storeLong, atWord,
    Option.some.injEq, exists_eq_left']
  exact ⟨storing.mapped done below, storing.next isWord⟩

/-- `bitmap_fill` sets the used bits and clears the unused ones. -/
theorem ensures_bitmapFill
    (positive : 1 ≤ nbits)
    (mapped : memory.longs.Mapped dst (bitsToLongs nbits)) :
    (Inline.bitmapFill false dst nbits).Ensures memory fun _ =>
      Becomes memory dst nbits fun index => decide (index < nbits) := by
  have count : bitsToLongs nbits - 1 + 1 = bitsToLongs nbits := by
    simp only [bitsToLongs]
    omega
  rw [Inline.bitmapFill, ensures_bind,
    ensures_onlyIf_of (by simp [Inline.smallConstNbits])]
  refine (ensures_countUp
    (fun done =>
      Storing memory dst (bitsToLongs nbits) done fun index =>
        decide (index < nbits))
    (.start mapped) ?_).weaken ?_
  · intro done below before storing
    rw [ensures_storeLong]
    refine ⟨storing.mapped done (by omega), storing.next ?_⟩
    intro index inside
    have used : done * 64 + index < nbits := by
      simp only [bitsToLongs] at below
      omega
    rw [BitVec.getLsbD_not]
    simp [inside, used]
  · intro _ before storing
    have isLast :
        ∀ index < 64,
          (lastWordMask nbits).getLsbD index =
            decide ((bitsToLongs nbits - 1) * 64 + index < nbits) := by
      intro index inside
      rw [getLsbD_lastWordMask inside]
      simp only [bitsToLongs] at count ⊢
      exact decide_eq_decide.mpr (by omega)
    have stored := storing.next isLast
    rw [count] at stored
    rw [ensures_storeLong]
    exact ⟨storing.mapped _ (by omega), stored.becomes⟩

/-- `bitmap_zero` clears all bits. -/
theorem becomes_bitmapZero
    (mapped : memory.longs.Mapped dst (bitsToLongs nbits)) :
    (Inline.bitmapZero false dst nbits).Ensures memory fun _ =>
      Becomes memory dst nbits fun _ => false := by
  rw [Inline.bitmapZero, if_neg (by simp [Inline.smallConstNbits])]
  refine (ensures_bitmapZero mapped).weaken ?_
  intro _ after result
  obtain ⟨sameChars, stillMapped, same, isZero⟩ := result
  exact ⟨sameChars, stillMapped, same, isZero⟩

end Copy

end LibKern.Bitmap
