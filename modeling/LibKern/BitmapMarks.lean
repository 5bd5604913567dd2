import LibKern.BitmapMaps
import LibKern.BitmapSets
import LibKern.Ranks
import LibKern.ZeroScan

namespace LibKern.Bitmap

/-!
# Bitmaps that are marked bit by bit

A function that maps a bitmap clears its result, visits the set bits of an
argument in ascending order and sets bits of the result on the way.  The loop is
described by an invariant that is indexed by the position it has reached, and
the result by the set of positions that have been marked so far.
-/

open Program

/-- Two arrays of this many words do not overlap. -/
def NoOverlap (one other : Int) (count : Nat) : Prop :=
  one + count ≤ other ∨ other + count ≤ one

/-- Bitmaps with at least one word that do not overlap are different. -/
theorem NoOverlap.ne
    {one other : Int}
    {bits : Nat}
    (noOverlap : NoOverlap one other (bitsToLongs bits))
    (positive : 1 ≤ bits) :
    one ≠ other := by
  have someWord : 0 < bitsToLongs bits := lt_bitsToLongs (by omega)
  rw [NoOverlap] at noOverlap
  omega

section ForEach

variable {memory : CMemory}
variable {addr : Int}
variable {size : Nat}
variable {β : Type}
variable {body : Nat → β → Program CMemory β}

/-- What holds at a position still holds after a gap. -/
theorem holds_after_gap
    {holds : Nat → β → CMemory → Prop}
    {offset found : Nat}
    {current : β}
    {state : CMemory}
    (skip :
      ∀ bit < size, memory.longs.bit addr bit = false →
      ∀ current state,
        holds bit current state →
        holds (bit + 1) current state)
    (first : FirstSet memory.longs addr size offset found)
    (above : offset ≤ found)
    (isHolding : holds offset current state) :
    holds found current state := by
  obtain ⟨atMost, clear, -⟩ := first
  induction found, above using Nat.le_induction with
  | base =>
      exact isHolding
  | succ found above inductionHypothesis =>
      apply skip found (by omega) (clear found above (by omega))
      apply inductionHypothesis (by omega)
      intro index reached below
      exact clear index reached (by omega)

/-- The loop of `for_each_set_bit` keeps an invariant. -/
theorem ensures_eachSetBit_of_step
    {holds : Nat → β → CMemory → Prop}
    {bit : Nat}
    {current : β}
    {state : CMemory}
    (mapped : memory.longs.Mapped addr (bitsToLongs size))
    (same :
      ∀ bit current state,
        holds bit current state →
        SameWords memory addr (bitsToLongs size) state)
    (skip :
      ∀ bit < size, memory.longs.bit addr bit = false →
      ∀ current state,
        holds bit current state →
        holds (bit + 1) current state)
    (step :
      ∀ bit < size, memory.longs.bit addr bit = true →
      ∀ current state,
        holds bit current state →
        (body bit current).Ensures state (holds (bit + 1)))
    (atMost : bit ≤ size)
    (isSet : bit < size → memory.longs.bit addr bit = true)
    (isHolding : holds bit current state) :
    (loop (eachSetBit addr size body) (bit, current)).Ensures state
      (holds size) := by
  induction remaining : size - bit using Nat.strong_induction_on
    generalizing bit current state with
  | h remaining inductionHypothesis =>
      rw [ensures_loop, eachSetBit]
      split
      · rename_i inside
        rw [ensures_bind]
        refine (step bit inside (isSet inside) current state
          isHolding).weaken ?_
        intro next after nextHolding
        have stillSame := same _ _ _ nextHolding
        rw [ensures_bind]
        refine (ensures_findNextBit (stillSame.mapped mapped)).weaken ?_
        intro found between scanned
        obtain ⟨rfl, first⟩ := scanned
        have first := stillSame.firstSet first
        have later : bit + 1 ≤ found := by
          by_contra notLater
          have reached := first.found (by omega)
          omega
        exact ensures_pure.mpr
          (inductionHypothesis (size - found) (by omega) first.atMost
            (fun below => (first.found below).2)
            (holds_after_gap skip first later nextHolding) rfl)
      · rename_i atEnd
        obtain rfl : bit = size := by
          omega
        exact ensures_pure.mpr isHolding

/--
A loop over the set bits keeps an invariant that is indexed by the position, if
a set bit is handled by the body and a clear bit does not matter.
-/
theorem ensures_forEachSetBit
    {start : β}
    (holds : Nat → β → CMemory → Prop)
    (mapped : memory.longs.Mapped addr (bitsToLongs size))
    (same :
      ∀ bit current state,
        holds bit current state →
        SameWords memory addr (bitsToLongs size) state)
    (skip :
      ∀ bit < size, memory.longs.bit addr bit = false →
      ∀ current state,
        holds bit current state →
        holds (bit + 1) current state)
    (step :
      ∀ bit < size, memory.longs.bit addr bit = true →
      ∀ current state,
        holds bit current state →
        (body bit current).Ensures state (holds (bit + 1)))
    (initially : holds 0 start memory) :
    (forEachSetBit addr size start body).Ensures memory (holds size) := by
  rw [forEachSetBit, ensures_bind]
  refine (ensures_findFirstBit mapped).weaken ?_
  intro first after scanned
  obtain ⟨rfl, isFirst⟩ := scanned
  exact ensures_eachSetBit_of_step mapped same skip step isFirst.atMost
    (fun below => (isFirst.found below).2)
    (holds_after_gap skip isFirst (Nat.zero_le _) initially)

end ForEach

section Marks

variable {memory state : CMemory}
variable {dst bitmap : Int}
variable {bits nr : Nat}
variable {set : Finset Nat}

/-- Only a bitmap was changed, and these are its set bits now. -/
def Marks
    (memory : CMemory)
    (dst : Int)
    (bits : Nat)
    (set : Finset Nat)
    (after : CMemory) : Prop :=
  Becomes memory dst bits (fun index => decide (index ∈ set)) after

/-- Every used bit is a bit of one of the words. -/
theorem le_bitsToLongs_mul (bits : Nat) : bits ≤ bitsToLongs bits * 64 := by
  simp only [bitsToLongs]
  omega

/-- The used bits of the result. -/
theorem Marks.view_eq
    (marks : Marks memory dst bits set state)
    (bounded : ∀ index ∈ set, index < bits) :
    view state.longs dst bits = set := by
  ext index
  rw [mem_view]
  constructor
  · intro isSet
    have enough := le_bitsToLongs_mul bits
    rw [marks.isValue index (by omega), decide_eq_true_iff] at isSet
    exact isSet.2
  · intro member
    have below := bounded index member
    have enough := le_bitsToLongs_mul bits
    refine ⟨below, ?_⟩
    rw [marks.isValue index (by omega), decide_eq_true_iff]
    exact member

/-- The words of a bitmap that is not the result. -/
theorem Marks.sameWords
    (marks : Marks memory dst bits set state)
    (noOverlap : NoOverlap dst bitmap (bitsToLongs bits)) :
    SameWords memory bitmap (bitsToLongs bits) state := by
  intro index below
  apply marks.outside
  rw [NoOverlap] at noOverlap
  omega

/-- Every array that could be accessed can still be accessed. -/
theorem Marks.stays_mapped
    {base : Int}
    {count : Nat}
    (marks : Marks memory dst bits set state)
    (mapped : memory.longs.Mapped base count) :
    state.longs.Mapped base count :=
  marks.outside.mapped marks.mapped mapped

/-- The used bits of a bitmap that is not the result. -/
theorem SameWords.view_eq
    (same : SameWords memory bitmap (bitsToLongs bits) state) :
    view state.longs bitmap bits = view memory.longs bitmap bits := by
  ext index
  rw [mem_view, mem_view]
  refine and_congr_right fun below => ?_
  rw [Region.bit_congr (same (index / 64) (lt_bitsToLongs (by omega)))]

/-- `bitmap_zero` marks nothing. -/
theorem ensures_bitmapZero_marks
    (mapped : memory.longs.Mapped dst (bitsToLongs bits)) :
    (bitmapZero dst bits).Ensures memory fun _ =>
      Marks memory dst bits ∅ := by
  refine (ensures_bitmapZero mapped).weaken ?_
  intro _ after cleared
  obtain ⟨sameChars, stillMapped, outside, isClear⟩ := cleared
  refine ⟨sameChars, stillMapped, outside, ?_⟩
  intro index below
  rw [isClear index below]
  simp

/-- `set_bit` marks one more bit. -/
theorem Marks.ensures_setBit
    (marks : Marks memory dst bits set state)
    (below : nr < bits) :
    (setBit nr dst).Ensures state fun _ =>
      Marks memory dst bits (insert nr set) := by
  refine (ensures_setBit_overlap marks.mapped
    (lt_bitsToLongs (by omega))).weaken ?_
  intro _ after written
  obtain ⟨sameChars, outside, stillMapped, isBit⟩ := written
  refine ⟨sameChars.trans marks.chars, stillMapped _ _ marks.mapped,
    marks.outside.trans outside, ?_⟩
  intro index inside
  rw [isBit, marks.isValue index inside, ← Bool.decide_or]
  congr 1
  rw [Finset.mem_insert, eq_iff_iff]
  constructor
  · intro isMarked
    rcases isMarked with member | isHere
    · exact .inr member
    · exact .inl (by omega)
  · intro isMarked
    rcases isMarked with rfl | member
    · exact .inr ⟨rfl, rfl⟩
    · exact .inl member

/-- Two states with the same marks have the same contents. -/
theorem Marks.unique
    {other : CMemory}
    (marks : Marks memory dst bits set state)
    (otherMarks : Marks memory dst bits set other) :
    state.longs = other.longs ∧ state.chars = other.chars := by
  refine ⟨?_, marks.chars.trans otherMarks.chars.symm⟩
  apply Region.eq_of_bits otherMarks.mapped marks.mapped
  · intro address isOutside
    rw [marks.outside address isOutside,
      otherMarks.outside address isOutside]
  · intro index below
    rw [marks.isValue index below, otherMarks.isValue index below]

/--
A loop that marks one bit for each set bit of a bitmap marks the image of its
set bits.
-/
theorem ensures_forEachSetBit_image
    {zeroed : CMemory}
    {src : Int}
    {body : Nat → Unit → Program CMemory Unit}
    (image : Nat → Nat)
    (mappedSrc : memory.longs.Mapped src (bitsToLongs bits))
    (apartSrc : NoOverlap dst src (bitsToLongs bits))
    (cleared : Marks memory dst bits ∅ zeroed)
    (step :
      ∀ bit < bits, ∀ set state,
        Marks memory dst bits set state →
        (body bit ()).Ensures state fun _ =>
          Marks memory dst bits (insert (image bit) set)) :
    (forEachSetBit src bits () body).Ensures zeroed fun _ =>
      Marks memory dst bits ((view memory.longs src bits).image image) := by
  have sameSrc := cleared.sameWords apartSrc
  have allBelow :
      (view memory.longs src bits).filter (· < bits) =
        view memory.longs src bits := by
    apply Finset.filter_true_of_mem
    intro bit member
    exact (mem_view.mp member).1
  rw [← allBelow]
  refine ensures_forEachSetBit
    (fun bit _ => Marks memory dst bits
      (((view memory.longs src bits).filter (· < bit)).image image))
    (cleared.stays_mapped mappedSrc) ?_ ?_ ?_ ?_
  · intro bit _ state marks index below
    rw [marks.sameWords apartSrc index below, sameSrc index below]
  · intro bit below isClear _ state marks
    rw [Ranks.filter_lt_succ_of_notMem]
    · exact marks
    · rw [← sameSrc.view_eq, mem_view, isClear]
      simp
  · intro bit below isSet _ state marks
    rw [Ranks.filter_lt_succ_of_mem, Finset.image_insert]
    · exact step bit below _ state marks
    · rw [← sameSrc.view_eq]
      exact mem_view.mpr ⟨below, isSet⟩
  · have nothing : (view memory.longs src bits).filter (· < 0) = ∅ := by
      simp
    rw [nothing, Finset.image_empty]
    exact cleared

end Marks

end LibKern.Bitmap
