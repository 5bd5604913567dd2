import LibKern.BitScan
import Mathlib.Order.Bounds.Basic

namespace LibKern.Bitmap

/-!
# Scans for clear bits, and all positions of set bits

A scan for a clear bit takes the same steps as the scan for a set bit in the
memory whose words are complemented.  The loop over the set bits visits the
positions that the scans find, in ascending order.
-/

open Program

section Complement

/-- The memory with all words complemented. -/
def complemented (memory : CMemory) : CMemory :=
  { memory with
    longs.cell := fun address =>
      (memory.longs.cell address).map fun word => ~~~word }

variable {memory : CMemory} {addr : Int} {size offset : Nat}
variable {found : Nat → Prop}

theorem ensures_loadLong_complemented
    {address : Int}
    {post : BitVec 64 → CMemory → Prop} :
    (loadLong address).Ensures (complemented memory) post ↔
      ∃ value, memory.longs.cell address = some value ∧
        post (~~~value) (complemented memory) := by
  simp only [ensures_loadLong, complemented, Option.map_eq_some_iff]
  constructor
  · intro loaded
    obtain ⟨_, ⟨value, atAddress, rfl⟩, holds⟩ := loaded
    exact ⟨value, atAddress, holds⟩
  · intro loaded
    obtain ⟨value, atAddress, holds⟩ := loaded
    exact ⟨_, ⟨value, atAddress, rfl⟩, holds⟩

/-- A mask of high bits and a mask of low bits. -/
theorem not_highMask
    {count : Nat}
    (bound : count ≤ 64) :
    ~~~(BitVec.allOnes 64 <<< count) =
      BitVec.allOnes 64 >>> (64 - count) := by
  apply BitVec.eq_of_getLsbD_eq
  intro index inside
  have inMask : index - count < 64 := by
    omega
  have isLow : 64 - count + index < 64 ↔ index < count := by
    omega
  simp only [BitVec.getLsbD_not, BitVec.getLsbD_shiftLeft,
    BitVec.getLsbD_ushiftRight, BitVec.getLsbD_allOnes, inside, inMask,
    isLow, decide_true, Bool.true_and, Bool.and_true, Bool.not_not]

/-- The last word of a scan. -/
theorem foundFirstZero_eq
    {tmp : BitVec 64}
    {result count : Nat}
    (bound : count ≤ 64) :
    foundFirstZero tmp result count = foundFirst (~~~tmp) result count := by
  have masked :
      ~~~tmp &&& (BitVec.allOnes 64 >>> (64 - count)) =
        ~~~(tmp ||| (BitVec.allOnes 64 <<< count)) := by
    rw [BitVec.not_or, not_highMask bound]
  have isZero (word : BitVec 64) :
      word = BitVec.allOnes 64 ↔ ~~~word = 0 := by
    rw [BitVec.not_eq_comm]
    exact Iff.of_eq (congrArg _ BitVec.not_zero.symm)
  simp only [foundFirstZero, foundFirst, ffz, masked, isZero]

/-- The loop over the words takes the same steps. -/
theorem ensures_scanZeroWords
    {vars : ScanVars}
    (scanned :
      (loop scanWords vars).Ensures (complemented memory)
        fun result _ => found result) :
    (loop scanZeroWords vars).Ensures memory fun result after =>
      after = memory ∧ found result := by
  induction remaining : vars.size using Nat.strong_induction_on
    generalizing vars with
  | h remaining inductionHypothesis =>
      subst remaining
      rw [ensures_loop] at scanned ⊢
      rw [scanWords] at scanned
      rw [scanZeroWords]
      by_cases whole : wholeWords vars.size ≠ 0
      · rw [if_pos whole, ensures_bind,
          ensures_loadLong_complemented] at scanned
        obtain ⟨value, atWord, scanned⟩ := scanned
        rw [if_pos whole, ensures_bind, ensures_loadLong]
        refine ⟨value, atWord, ?_⟩
        by_cases isFound : ~~~value ≠ 0
        · rw [if_pos isFound, ensures_pure] at scanned ⊢
          exact ⟨rfl, scanned⟩
        · rw [if_neg isFound, ensures_pure] at scanned ⊢
          refine inductionHypothesis (vars.size - 64) ?_ scanned rfl
          simp only [wholeWords] at whole
          omega
      · rw [if_neg whole] at scanned ⊢
        by_cases atEnd : vars.size = 0
        · rw [if_pos atEnd, ensures_pure] at scanned ⊢
          exact ⟨rfl, scanned⟩
        · rw [if_neg atEnd, ensures_bind,
            ensures_loadLong_complemented] at scanned
          obtain ⟨value, atWord, scanned⟩ := scanned
          rw [if_neg atEnd, ensures_bind, ensures_loadLong]
          refine ⟨value, atWord, ?_⟩
          have few : vars.size ≤ 64 := by
            simp only [wholeWords] at whole
            omega
          rw [ensures_pure] at scanned ⊢
          rw [foundFirstZero_eq few]
          exact ⟨rfl, scanned⟩

/-- `find_first_zero_bit` scans the complement. -/
theorem ensures_findFirstZeroBit_of_complemented
    (scanned :
      (findFirstBit addr size).Ensures (complemented memory)
        fun result _ => found result) :
    (findFirstZeroBit addr size).Ensures memory fun result after =>
      after = memory ∧ found result :=
  ensures_scanZeroWords scanned

/-- `find_next_zero_bit` scans the complement. -/
theorem ensures_findNextZeroBit_of_complemented
    (scanned :
      (findNextBit addr size offset).Ensures (complemented memory)
        fun result _ => found result) :
    (findNextZeroBit addr size offset).Ensures memory fun result after =>
      after = memory ∧ found result := by
  simp only [findNextBit] at scanned
  simp only [findNextZeroBit]
  by_cases beyond : offset ≥ size
  · rw [if_pos beyond, ensures_pure] at scanned ⊢
    exact ⟨rfl, scanned⟩
  · rw [if_neg beyond] at scanned ⊢
    by_cases unaligned : offset % 64 ≠ 0
    · rw [if_pos unaligned, ensures_bind,
        ensures_loadLong_complemented] at scanned
      obtain ⟨value, atWord, scanned⟩ := scanned
      rw [if_pos unaligned, ensures_bind, ensures_loadLong]
      refine ⟨value, atWord, ?_⟩
      have masked :
          ~~~value &&& (BitVec.allOnes 64 <<< (offset % 64)) =
            ~~~(value |||
              (BitVec.allOnes 64 >>> (64 - offset % 64))) := by
        rw [BitVec.not_or, ← not_highMask (by omega), BitVec.not_not]
      rw [masked] at scanned
      by_cases last : size - wholeWords offset < 64
      · rw [if_pos last, ensures_pure] at scanned ⊢
        rw [foundFirstZero_eq last.le]
        exact ⟨rfl, scanned⟩
      · rw [if_neg last] at scanned ⊢
        by_cases isFound :
            ~~~(value |||
              (BitVec.allOnes 64 >>> (64 - offset % 64))) ≠ 0
        · rw [if_pos isFound, ensures_pure] at scanned ⊢
          exact ⟨rfl, scanned⟩
        · rw [if_neg isFound] at scanned ⊢
          exact ensures_scanZeroWords scanned
    · rw [if_neg unaligned] at scanned ⊢
      exact ensures_scanZeroWords scanned

/-- The lowest clear bit from an offset on, or the size if there is none. -/
structure FirstClear
    (longs : Region (BitVec 64))
    (addr : Int)
    (size offset result : Nat) : Prop where
  atMost : result ≤ size
  isSet :
    ∀ index, offset ≤ index → index < result →
      longs.bit addr index = true
  found : result < size → offset ≤ result ∧ longs.bit addr result = false

/-- The bits of the complement. -/
theorem bit_complemented
    {index : Nat}
    (mapped : memory.longs.Mapped addr (bitsToLongs size))
    (inside : index < size) :
    (complemented memory).longs.bit addr index =
      !memory.longs.bit addr index := by
  obtain ⟨value, atWord⟩ :=
    mapped (index / 64) (lt_bitsToLongs (by omega))
  have inWord : index % 64 < 64 := by
    omega
  simp only [Region.bit, complemented, atWord, Option.map_some,
    Option.getD_some, BitVec.getLsbD_not, inWord, decide_true,
    Bool.true_and]

/-- A set bit of the complement is a clear bit. -/
theorem firstClear_of_complemented
    {result : Nat}
    (mapped : memory.longs.Mapped addr (bitsToLongs size))
    (first :
      FirstSet (complemented memory).longs addr size offset result) :
    FirstClear memory.longs addr size offset result := by
  obtain ⟨atMost, clear, found⟩ := first
  refine ⟨atMost, ?_, ?_⟩
  · intro index above before
    have isClear := clear index above before
    rw [bit_complemented mapped (by omega)] at isClear
    simpa using isClear
  · intro inside
    obtain ⟨above, isSet⟩ := found inside
    rw [bit_complemented mapped inside] at isSet
    exact ⟨above, by simpa using isSet⟩

/-- The complement has the same words. -/
theorem mapped_complemented
    {count : Nat}
    (mapped : memory.longs.Mapped addr count) :
    (complemented memory).longs.Mapped addr count := by
  intro index below
  obtain ⟨value, atWord⟩ := mapped index below
  exact ⟨~~~value, by simp [complemented, atWord]⟩

/-- `find_next_zero_bit` returns the lowest clear bit from an offset on. -/
theorem ensures_findNextZeroBit
    (mapped : memory.longs.Mapped addr (bitsToLongs size)) :
    (findNextZeroBit addr size offset).Ensures memory fun result after =>
      after = memory ∧
        FirstClear memory.longs addr size offset result := by
  apply ensures_findNextZeroBit_of_complemented
  refine (ensures_findNextBit (mapped_complemented mapped)).weaken ?_
  intro result after scanned
  exact firstClear_of_complemented mapped scanned.2

/-- `find_first_zero_bit` returns the lowest clear bit. -/
theorem ensures_findFirstZeroBit
    (mapped : memory.longs.Mapped addr (bitsToLongs size)) :
    (findFirstZeroBit addr size).Ensures memory fun result after =>
      after = memory ∧ FirstClear memory.longs addr size 0 result := by
  apply ensures_findFirstZeroBit_of_complemented
  refine (ensures_findFirstBit (mapped_complemented mapped)).weaken ?_
  intro result after scanned
  exact firstClear_of_complemented mapped scanned.2

end Complement

section Exact

variable {memory : CMemory} {addr : Int} {size offset result : Nat}

/-- The least one of these positions, or the size if there is none. -/
def LeastOr (positions : Set Nat) (size result : Nat) : Prop :=
  IsLeast positions result ∨ positions = ∅ ∧ result = size

/-- What a scan finds is the least position that passes its test. -/
private theorem leastOr_of_first
    {test : Nat → Prop}
    (atMost : result ≤ size)
    (before : ∀ index, offset ≤ index → index < result → ¬test index)
    (found : result < size → offset ≤ result ∧ test result) :
    LeastOr {index | offset ≤ index ∧ index < size ∧ test index} size
      result := by
  by_cases inside : result < size
  · obtain ⟨above, passes⟩ := found inside
    refine .inl ⟨⟨above, inside, passes⟩, ?_⟩
    intro index other
    by_contra less
    exact before index other.1 (Nat.lt_of_not_le less) other.2.2
  · obtain rfl : result = size := by
      omega
    refine .inr ⟨?_, rfl⟩
    rw [Set.eq_empty_iff_forall_notMem]
    intro index other
    exact before index other.1 other.2.1 other.2.2

theorem FirstSet.leastOr
    {longs : Region (BitVec 64)}
    (first : FirstSet longs addr size offset result) :
    LeastOr
      {index | offset ≤ index ∧ index < size ∧
        longs.bit addr index = true}
      size result :=
  leastOr_of_first first.atMost
    (fun index above before => by simp [first.clear index above before])
    first.found

theorem FirstClear.leastOr
    {longs : Region (BitVec 64)}
    (first : FirstClear longs addr size offset result) :
    LeastOr
      {index | offset ≤ index ∧ index < size ∧
        longs.bit addr index = false}
      size result :=
  leastOr_of_first first.atMost
    (fun index above before => by simp [first.isSet index above before])
    first.found

theorem FirstClear.unique
    {longs : Region (BitVec 64)}
    {other : Nat}
    (one : FirstClear longs addr size offset result)
    (another : FirstClear longs addr size offset other) :
    result = other := by
  rcases one.leastOr with isLeast | ⟨isEmpty, rfl⟩
  · rcases another.leastOr with otherLeast | ⟨isEmpty, -⟩
    · exact isLeast.unique otherLeast
    · exact absurd isLeast.1 (by simp [isEmpty])
  · rcases another.leastOr with otherLeast | ⟨-, rfl⟩
    · exact absurd otherLeast.1 (by simp [isEmpty])
    · rfl

/-- Every set position from an offset on, in ascending order. -/
def setPositions
    (longs : Region (BitVec 64))
    (addr : Int)
    (size offset : Nat) : List Nat :=
  (List.range' offset (size - offset)).filter fun index =>
    longs.bit addr index

/-- The first one of the set positions, and the ones after it. -/
theorem FirstSet.setPositions_eq
    {longs : Region (BitVec 64)}
    (first : FirstSet longs addr size offset result)
    (above : offset ≤ result) :
    setPositions longs addr size offset =
      if result < size then
        result :: setPositions longs addr size (result + 1)
      else
        [] := by
  have none :
      (List.range' offset (result - offset)).filter
        (fun index => longs.bit addr index) = [] := by
    rw [List.filter_eq_nil_iff]
    intro index member
    rw [List.mem_range'_1] at member
    simp [first.clear index member.1 (by omega)]
  have total :
      size - offset = (result - offset) + (size - result) := by
    have atMost := first.atMost
    omega
  have start : offset + (result - offset) = result := by
    omega
  rw [setPositions, total, ← List.range'_append_1, List.filter_append,
    none, List.nil_append, start]
  split
  · rename_i inside
    obtain ⟨following, count⟩ := Nat.exists_eq_succ_of_ne_zero
      (by omega : size - result ≠ 0)
    have rest : size - (result + 1) = following := by
      omega
    rw [count, List.range'_succ, List.filter_cons,
      if_pos (first.found inside).2, setPositions, rest]
  · rename_i atEnd
    have nothing : size - result = 0 := by
      omega
    rw [nothing]
    rfl

/-- The array has the same words as before. -/
def SameWords
    (memory : CMemory)
    (addr : Int)
    (count : Nat)
    (after : CMemory) : Prop :=
  ∀ index < count,
    after.longs.cell (addr + (index : Nat)) =
      memory.longs.cell (addr + (index : Nat))

theorem SameWords.mapped
    {after : CMemory}
    {count : Nat}
    (same : SameWords memory addr count after)
    (mapped : memory.longs.Mapped addr count) :
    after.longs.Mapped addr count := by
  intro index below
  rw [same index below]
  exact mapped index below

/-- The same bit is found in an array with the same words. -/
theorem SameWords.firstSet
    {after : CMemory}
    (same : SameWords memory addr (bitsToLongs size) after)
    (first : FirstSet after.longs addr size offset result) :
    FirstSet memory.longs addr size offset result := by
  have isBit :
      ∀ index < size,
        after.longs.bit addr index = memory.longs.bit addr index := by
    intro index inside
    rw [Region.bit, Region.bit,
      same (index / 64) (lt_bitsToLongs (by omega))]
  refine ⟨first.atMost, ?_, ?_⟩
  · intro index above before
    rw [← isBit index (before.trans_le first.atMost)]
    exact first.clear index above before
  · intro inside
    rw [← isBit result inside]
    exact first.found inside

section ForEach

variable {β : Type} {body : Nat → β → Program CMemory β}

/-- The loop of `for_each_set_bit` visits the set positions. -/
theorem ensures_eachSetBit_iff
    {state : CMemory}
    {current : β}
    {post : β → CMemory → Prop}
    (mapped : memory.longs.Mapped addr (bitsToLongs size))
    (keeps :
      ∀ bit current,
        (body bit current).Preserves
          (SameWords memory addr (bitsToLongs size)))
    (same : SameWords memory addr (bitsToLongs size) state)
    (first : FirstSet memory.longs addr size offset result)
    (above : offset ≤ result) :
    (loop (eachSetBit addr size body) (result, current)).Ensures state
        post ↔
      ((setPositions memory.longs addr size offset).foldlM
        (fun current bit => body bit current) current).Ensures state
          post := by
  induction remaining : size - result using Nat.strong_induction_on
    generalizing offset result state current with
  | h remaining inductionHypothesis =>
      subst remaining
      rw [first.setPositions_eq above, ensures_loop, eachSetBit]
      by_cases inside : result < size
      · rw [if_pos inside, if_pos inside, List.foldlM_cons, ensures_bind,
          ensures_bind]
        refine Permits.ensures_congr ?_
        refine (keeps result current state same).weaken ?_
        intro next after stillSame
        have scanned :
            (findNextBit addr size (result + 1)).Ensures after
              fun found between =>
                between = after ∧
                  FirstSet after.longs addr size (result + 1) found :=
          ensures_findNextBit (stillSame.mapped mapped)
        obtain ⟨found, between, returned, rfl, isFirst⟩ := scanned
        rw [ensures_bind, returned.ensures_iff, ensures_pure]
        have following := stillSame.firstSet isFirst
        have later : result + 1 ≤ found := by
          by_contra notLater
          have atMost := following.found (by omega)
          omega
        exact inductionHypothesis (size - found) (by omega) stillSame
          following later rfl
      · rw [if_neg inside, if_neg inside, List.foldlM_nil]
        simp

/-- `for_each_set_bit` visits all set positions. -/
theorem ensures_forEachSetBit_iff
    {start : β}
    {post : β → CMemory → Prop}
    (mapped : memory.longs.Mapped addr (bitsToLongs size))
    (keeps :
      ∀ bit current,
        (body bit current).Preserves
          (SameWords memory addr (bitsToLongs size))) :
    (forEachSetBit addr size start body).Ensures memory post ↔
      ((setPositions memory.longs addr size 0).foldlM
        (fun current bit => body bit current) start).Ensures memory
          post := by
  obtain ⟨first, after, returned, rfl, isFirst⟩ :=
    ensures_findFirstBit mapped
  rw [forEachSetBit, ensures_bind, returned.ensures_iff]
  exact ensures_eachSetBit_iff mapped keeps (fun _ _ => rfl) isFirst
    (Nat.zero_le _)

end ForEach

/-- The set positions are the ones below the size with a set bit. -/
theorem mem_setPositions
    {longs : Region (BitVec 64)}
    {index : Nat} :
    index ∈ setPositions longs addr size 0 ↔
      index < size ∧ longs.bit addr index = true := by
  simp [setPositions, List.mem_range'_1]

/-- Each set position occurs once, and the positions are ascending. -/
theorem setPositions_ascending (longs : Region (BitVec 64)) :
    (setPositions longs addr size offset).Pairwise (· < ·) :=
  List.Pairwise.filter _ (List.pairwise_lt_range' 1 (by decide))

/-- A loop that collects the positions it is called with. -/
theorem ensures_foldlM_collect
    (positions seen : List Nat) :
    (positions.foldlM
      (fun seen bit => (pure (seen ++ [bit]) : Program CMemory _))
      seen).Ensures memory fun collected after =>
        after = memory ∧ collected = seen ++ positions := by
  induction positions generalizing seen with
  | nil =>
      simp
  | cons position rest inductionHypothesis =>
      rw [List.foldlM_cons, ensures_bind, ensures_pure]
      refine (inductionHypothesis (seen ++ [position])).weaken ?_
      intro collected after result
      exact ⟨result.1, by simp [result.2]⟩

/-- What the scans of an array find, and the positions a loop visits. -/
structure ScansExactly
    (memory : CMemory)
    (addr : Int)
    (size : Nat) : Prop where
  nextBit :
    ∀ offset,
      (findNextBit addr size offset).Ensures memory fun result after =>
        after = memory ∧
          LeastOr
            {index | offset ≤ index ∧ index < size ∧
              memory.longs.bit addr index = true}
            size result
  nextZeroBit :
    ∀ offset,
      (findNextZeroBit addr size offset).Ensures memory
        fun result after =>
          after = memory ∧
            LeastOr
              {index | offset ≤ index ∧ index < size ∧
                memory.longs.bit addr index = false}
              size result
  firstBit :
    ∃ result,
      (findFirstBit addr size).Returns memory result memory ∧
        (findNextBit addr size 0).Returns memory result memory
  firstZeroBit :
    ∃ result,
      (findFirstZeroBit addr size).Returns memory result memory ∧
        (findNextZeroBit addr size 0).Returns memory result memory
  enumerates :
    (forEachSetBit addr size [] fun bit seen =>
      pure (seen ++ [bit])).Ensures memory fun seen after =>
        after = memory ∧ seen.Pairwise (· < ·) ∧
          ∀ index,
            index ∈ seen ↔
              index < size ∧ memory.longs.bit addr index = true
  visits :
    ∀ (β : Type) (start : β) (body : Nat → β → Program CMemory β),
      (∀ bit current,
        (body bit current).Preserves
          (SameWords memory addr (bitsToLongs size))) →
      ∀ post,
        (forEachSetBit addr size start body).Ensures memory post ↔
          ((setPositions memory.longs addr size 0).foldlM
            (fun current bit => body bit current) start).Ensures memory
              post

/--
The scans are exact for every size and offset.  Only the words of the array
have to exist, so no other word is read.
-/
theorem scansExactly
    (mapped : memory.longs.Mapped addr (bitsToLongs size)) :
    ScansExactly memory addr size where
  nextBit offset := by
    refine (ensures_findNextBit mapped).weaken ?_
    intro result after scanned
    exact ⟨scanned.1, scanned.2.leastOr⟩
  nextZeroBit offset := by
    refine (ensures_findNextZeroBit mapped).weaken ?_
    intro result after scanned
    exact ⟨scanned.1, scanned.2.leastOr⟩
  firstBit := by
    obtain ⟨first, after, returned, rfl, isFirst⟩ :=
      ensures_findFirstBit mapped
    refine ⟨first, returned, ?_⟩
    have scanned :
        (findNextBit addr size 0).Ensures after fun result between =>
          between = after ∧
            FirstSet after.longs addr size 0 result :=
      ensures_findNextBit mapped
    obtain ⟨next, between, nextReturned, rfl, isNext⟩ := scanned
    rwa [isFirst.unique isNext]
  firstZeroBit := by
    obtain ⟨first, after, returned, rfl, isFirst⟩ :=
      ensures_findFirstZeroBit mapped
    refine ⟨first, returned, ?_⟩
    have scanned :
        (findNextZeroBit addr size 0).Ensures after fun result between =>
          between = after ∧
            FirstClear after.longs addr size 0 result :=
      ensures_findNextZeroBit mapped
    obtain ⟨next, between, nextReturned, rfl, isNext⟩ := scanned
    rwa [isFirst.unique isNext]
  enumerates := by
    rw [ensures_forEachSetBit_iff mapped fun _ _ => preserves_pure _]
    refine (ensures_foldlM_collect _ []).weaken ?_
    intro seen after collected
    obtain ⟨isSame, rfl⟩ := collected
    refine ⟨isSame, setPositions_ascending _, fun index => ?_⟩
    exact mem_setPositions
  visits _ _ _ keeps _ := ensures_forEachSetBit_iff mapped keeps

/-- Two words with three set bits below 70. -/
def scannedWords : CMemory where
  longs := .ofList [9, 4]
  chars := .ofList []

/-- The scans of the array of `scannedWords` are exact. -/
theorem scansExactly_of_sample : ScansExactly scannedWords 0 70 :=
  scansExactly (Region.mapped_ofList (by decide))

end Exact

end LibKern.Bitmap
