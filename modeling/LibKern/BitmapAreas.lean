import LibKern.BitmapRanges
import LibKern.ZeroScan

namespace LibKern.Bitmap

/-!
# `bitmap_find_next_zero_area` is an exact first fit

Each round of the search skips positions that cannot be the start of an area:
the ones before the next clear bit, the ones that are not aligned, and the ones
up to a set bit in the area that was tried.
-/

open Program

section Align

variable {exponent : Nat}

/-- The mask for an alignment by a power of two. -/
def powerMask (exponent : Nat) : BitVec 64 :=
  .ofNat 64 (2 ^ exponent - 1)

/-- Rounding down to a multiple of a power of two. -/
theorem and_not_powerMask
    (value : BitVec 64) :
    (value &&& ~~~powerMask exponent).toNat =
      value.toNat / 2 ^ exponent * 2 ^ exponent := by
  have shifted :
      value &&& ~~~powerMask exponent =
        (value >>> exponent) <<< exponent := by
    apply BitVec.eq_of_getLsbD_eq
    intro index inside
    rw [BitVec.getLsbD_and, BitVec.getLsbD_not, powerMask,
      BitVec.getLsbD_ofNat, Nat.testBit_two_pow_sub_one,
      BitVec.getLsbD_shiftLeft, BitVec.getLsbD_ushiftRight]
    by_cases low : index < exponent
    · simp [inside, low]
    · simp [inside, low, Nat.add_sub_cancel' (Nat.le_of_not_lt low)]
  have small :
      value.toNat / 2 ^ exponent * 2 ^ exponent < 2 ^ 64 :=
    (Nat.div_mul_le_self _ _).trans_lt value.isLt
  rw [shifted, BitVec.toNat_shiftLeft, BitVec.toNat_ushiftRight,
    Nat.shiftRight_eq_div_pow, Nat.shiftLeft_eq, Nat.mod_eq_of_lt small]

/-- The least multiple from a position on. -/
structure AlignedUp (exponent x result : Nat) : Prop where
  reached : x ≤ result
  aligned : 2 ^ exponent ∣ result
  least : ∀ other, x ≤ other → 2 ^ exponent ∣ other → result ≤ other

/-- `__ALIGN_MASK` rounds up, if the sum does not overflow. -/
theorem alignedUp_alignMask
    {x : Nat}
    (small : x ≤ 2 ^ 63)
    (bound : exponent ≤ 63) :
    AlignedUp exponent x
      (alignMask (.ofNat 64 x) (powerMask exponent)).toNat := by
  have positive := Nat.two_pow_pos exponent
  have power : 2 ^ exponent ≤ 2 ^ 63 :=
    Nat.pow_le_pow_right (by decide) bound
  have isMask : (powerMask exponent).toNat = 2 ^ exponent - 1 := by
    rw [powerMask, BitVec.toNat_ofNat, Nat.mod_eq_of_lt (by omega)]
  have isSum :
      (BitVec.ofNat 64 x + powerMask exponent).toNat =
        x + (2 ^ exponent - 1) := by
    rw [BitVec.toNat_add, isMask, BitVec.toNat_ofNat,
      Nat.mod_eq_of_lt (by omega : x < 2 ^ 64),
      Nat.mod_eq_of_lt (by omega)]
  rw [alignMask, and_not_powerMask, isSum]
  have divided := Nat.div_add_mod (x + (2 ^ exponent - 1)) (2 ^ exponent)
  have remainder := Nat.mod_lt (x + (2 ^ exponent - 1)) positive
  rw [Nat.mul_comm] at divided
  refine ⟨by omega, Nat.dvd_mul_left _ _, ?_⟩
  intro other reached isAligned
  obtain ⟨factor, rfl⟩ := isAligned
  rw [Nat.mul_comm]
  apply Nat.mul_le_mul_left
  rw [← Nat.lt_succ_iff, Nat.div_lt_iff_lt_mul positive, Nat.succ_mul,
    Nat.mul_comm factor]
  omega

/-- Rounding up does not pass the greatest power of two. -/
theorem AlignedUp.le_two_pow
    {x result : Nat}
    (alignedUp : AlignedUp exponent x result)
    (small : x ≤ 2 ^ 63)
    (bound : exponent ≤ 63) :
    result ≤ 2 ^ 63 :=
  alignedUp.least _ small (Nat.pow_dvd_pow 2 bound)

end Align

/-- An aligned area of clear bits, not before a position. -/
structure ZeroArea
    (memory : CMemory)
    (map : Int)
    (size start nr exponent index : Nat) : Prop where
  reached : start ≤ index
  aligned : 2 ^ exponent ∣ index
  inside : index + nr ≤ size
  clear :
    ∀ position, index ≤ position → position < index + nr →
      memory.longs.bit map position = false

/-- The least area, or a value beyond the size if there is none. -/
def FirstFit
    (memory : CMemory)
    (map : Int)
    (size start nr exponent result : Nat) : Prop :=
  IsLeast {index | ZeroArea memory map size start nr exponent index}
      result ∨
    (∀ index, ¬ZeroArea memory map size start nr exponent index) ∧
      size < result

section Search

variable {memory : CMemory}
variable {map : Int}
variable {exponent : Nat}

/-- No area starts before the position that one round tries. -/
theorem ZeroArea.le_of_tried
    {size start nr first tried index : Nat}
    (isFirst : FirstClear memory.longs map size start first)
    (alignedUp : AlignedUp exponent first tried)
    (positive : 1 ≤ nr)
    (area : ZeroArea memory map size start nr exponent index) :
    tried ≤ index := by
  refine alignedUp.least index ?_ area.aligned
  by_contra before
  have isSet := isFirst.isSet index area.reached (by omega)
  rw [area.clear index le_rfl (by omega)] at isSet
  exact absurd isSet (by simp)

/-- The areas from a position on are the ones behind a set bit. -/
theorem zeroArea_iff_behind
    {size start nr tried blocked : Nat}
    (notBefore :
      ∀ index, ZeroArea memory map size start nr exponent index →
        tried ≤ index)
    (reached : start ≤ blocked)
    (inside : tried ≤ blocked ∧ blocked < tried + nr)
    (isSet : memory.longs.bit map blocked = true)
    (index : Nat) :
    ZeroArea memory map size start nr exponent index ↔
      ZeroArea memory map size (blocked + 1) nr exponent index := by
  constructor
  · intro area
    have notEarlier := notBefore index area
    refine ⟨?_, area.aligned, area.inside, area.clear⟩
    by_contra before
    have isClear := area.clear blocked (by omega) (by omega)
    rw [isSet] at isClear
    exact absurd isClear (by simp)
  · intro area
    have behind := area.reached
    exact ⟨by omega, area.aligned, area.inside, area.clear⟩

/-- The end of an area does not overflow. -/
private theorem toNat_add_nr
    {tried : BitVec 64}
    {nr : BitVec 32}
    (small : tried.toNat ≤ 2 ^ 63) :
    (tried + nr.setWidth 64).toNat = tried.toNat + nr.toNat := by
  have nrSmall := nr.isLt
  rw [BitVec.toNat_add, BitVec.toNat_setWidth,
    Nat.mod_eq_of_lt (by omega : nr.toNat < 2 ^ 64),
    Nat.mod_eq_of_lt (by omega)]

/-- The position behind a set bit does not overflow. -/
private theorem toNat_behind
    {blocked : Nat}
    (small : blocked < 2 ^ 63) :
    (BitVec.ofNat 64 blocked + 1).toNat = blocked + 1 := by
  have isOne : (1 : BitVec 64).toNat = 1 := rfl
  rw [BitVec.toNat_add, BitVec.toNat_ofNat, isOne,
    Nat.mod_eq_of_lt (by omega : blocked < 2 ^ 64),
    Nat.mod_eq_of_lt (by omega)]

/-- One round finds the first area, or goes on behind a set bit. -/
theorem ensures_nextZeroArea
    {size start : BitVec 64}
    {nr : BitVec 32}
    (mapped : memory.longs.Mapped map (bitsToLongs size.toNat))
    (small : size.toNat ≤ 2 ^ 63)
    (positive : 1 ≤ nr.toNat)
    (bound : exponent ≤ 63) :
    (nextZeroArea map size nr (powerMask exponent) start).Ensures memory
      fun flow after =>
        after = memory ∧
          match flow with
          | .done result =>
              FirstFit memory map size.toNat start.toNat nr.toNat exponent
                result.toNat
          | .next following =>
              start.toNat < following.toNat ∧
                following.toNat ≤ size.toNat ∧
                ∀ index,
                  ZeroArea memory map size.toNat start.toNat nr.toNat
                      exponent index ↔
                    ZeroArea memory map size.toNat following.toNat
                      nr.toNat exponent index := by
  rw [nextZeroArea, ensures_bind]
  refine (ensures_findNextZeroBit mapped).weaken ?_
  intro first between scanned
  obtain ⟨rfl, isFirst⟩ := scanned
  have firstSmall : first ≤ 2 ^ 63 := isFirst.atMost.trans small
  have alignedUp := alignedUp_alignMask firstSmall bound
  have triedSmall := alignedUp.le_two_pow firstSmall bound
  generalize alignMask (.ofNat 64 first) (powerMask exponent) = tried
    at alignedUp triedSmall
  have isLast :
      (tried + nr.setWidth 64).toNat = tried.toNat + nr.toNat :=
    toNat_add_nr triedSmall
  have notBefore :
      ∀ index,
        ZeroArea between map size.toNat start.toNat nr.toNat exponent
          index →
        tried.toNat ≤ index :=
    fun index area => area.le_of_tried isFirst alignedUp positive
  dsimp only
  rw [ensures_ite]
  split
  · rename_i beyond
    rw [gt_iff_lt, BitVec.lt_def, isLast] at beyond
    rw [ensures_pure]
    refine ⟨rfl, .inr ⟨?_, by omega⟩⟩
    intro index area
    have atLeast := notBefore index area
    have inside := area.inside
    omega
  · rename_i inside
    rw [gt_iff_lt, BitVec.lt_def, isLast] at inside
    have reached : start.toNat ≤ tried.toNat := by
      by_cases found : first < size.toNat
      · exact (isFirst.found found).1.trans alignedUp.reached
      · have atEnd := alignedUp.reached
        omega
    have words :
        bitsToLongs (tried.toNat + nr.toNat) ≤
          bitsToLongs size.toNat := by
      simp only [bitsToLongs]
      omega
    rw [ensures_bind, isLast]
    refine (ensures_findNextBit (mapped.mono words)).weaken ?_
    intro blocked final scanned
    obtain ⟨rfl, isBlocked⟩ := scanned
    rw [ensures_ite]
    split
    · rename_i isFound
      obtain ⟨behind, isSet⟩ := isBlocked.found isFound
      rw [ensures_pure]
      dsimp only
      rw [toNat_behind (by omega)]
      exact ⟨rfl, by omega, by omega,
        zeroArea_iff_behind notBefore (by omega) ⟨behind, isFound⟩ isSet⟩
    · rename_i notFound
      rw [ensures_pure]
      refine ⟨rfl, .inl ⟨⟨reached, alignedUp.aligned, by omega, ?_⟩,
        notBefore⟩⟩
      intro position above below
      exact isBlocked.clear position above (by omega)

/-- `bitmap_find_next_zero_area` finds the first area. -/
theorem ensures_bitmapFindNextZeroArea
    {size start : BitVec 64}
    {nr : BitVec 32}
    (mapped : memory.longs.Mapped map (bitsToLongs size.toNat))
    (small : size.toNat ≤ 2 ^ 63)
    (positive : 1 ≤ nr.toNat)
    (bound : exponent ≤ 63) :
    (bitmapFindNextZeroArea map size start nr
      (powerMask exponent)).Ensures memory fun result after =>
        after = memory ∧
          FirstFit memory map size.toNat start.toNat nr.toNat exponent
            result.toNat := by
  rw [bitmapFindNextZeroArea]
  induction remaining : size.toNat - start.toNat using
    Nat.strong_induction_on generalizing start with
  | h remaining inductionHypothesis =>
      subst remaining
      rw [ensures_loop]
      refine (ensures_nextZeroArea mapped small positive bound).weaken ?_
      intro flow after outcome
      obtain ⟨rfl, holds⟩ := outcome
      cases flow with
      | done result =>
          exact ⟨rfl, holds⟩
      | next following =>
          obtain ⟨later, inside, sameAreas⟩ := holds
          refine (inductionHypothesis (size.toNat - following.toNat)
            (by omega) rfl).weaken ?_
          intro result final found
          refine ⟨found.1, ?_⟩
          simpa only [FirstFit, sameAreas] using found.2

end Search

section Runs

/-- `INT_MAX`. -/
def intMax : Nat :=
  2 ^ 31 - 1

/-- Two areas have no position in common. -/
def AreasApart (one other : Nat × Nat) : Prop :=
  one.1 + one.2 ≤ other.1 ∨ other.1 + other.2 ≤ one.1

/--
A run in which areas are searched for and then set.  Each search has its own
arguments, and an area that is found is given as its first position and its
length, the last one first.
-/
inductive AreasReach
    (map : Int)
    (words : Nat)
    (memory : CMemory) :
    CMemory → List (Nat × Nat) → Prop where
  | start : AreasReach map words memory memory []
  | set
      {before between after : CMemory}
      {areas : List (Nat × Nat)}
      {size start result : BitVec 64}
      {nr : BitVec 32}
      {exponent : Nat} :
      AreasReach map words memory before areas →
      bitsToLongs size.toNat ≤ words →
      size.toNat ≤ 2 ^ 63 →
      1 ≤ nr.toNat →
      exponent ≤ 63 →
      (bitmapFindNextZeroArea map size start nr
        (powerMask exponent)).Returns before result between →
      result.toNat ≤ size.toNat →
      result.toNat + nr.toNat ≤ intMax →
      (bitmapSet map result.toNat nr.toNat).Returns between () after →
      AreasReach map words memory after
        ((result.toNat, nr.toNat) :: areas)

variable {memory after : CMemory}
variable {map : Int}
variable {words : Nat}
variable {areas : List (Nat × Nat)}

/-- The areas of a run are apart, and all of their bits are set. -/
structure AreasSet
    (map : Int)
    (words : Nat)
    (memory : CMemory)
    (areas : List (Nat × Nat)) : Prop where
  mapped : memory.longs.Mapped map words
  apart : areas.Pairwise AreasApart
  isSet :
    ∀ area ∈ areas, ∀ position,
      area.1 ≤ position → position < area.1 + area.2 →
      memory.longs.bit map position = true
  nonempty : ∀ area ∈ areas, 1 ≤ area.2

/-- Setting an area that was clear keeps the other ones. -/
private theorem AreasSet.set
    {before : CMemory}
    {index nr : Nat}
    (areasSet : AreasSet map words before areas)
    (positive : 1 ≤ nr)
    (clear :
      ∀ position, index ≤ position → position < index + nr →
        before.longs.bit map position = false)
    (range :
      RangeIs before map index (index + nr) (coveringWords index nr) true
        after) :
    AreasSet map words after ((index, nr) :: areas) := by
  have overlaps
      (area : Nat × Nat)
      (member : area ∈ areas)
      (position : Nat)
      (inside : area.1 ≤ position ∧ position < area.1 + area.2)
      (inNew : index ≤ position ∧ position < index + nr) :
      False := by
    have isSet := areasSet.isSet area member position inside.1 inside.2
    rw [clear position inNew.1 inNew.2] at isSet
    exact absurd isSet (by simp)
  refine ⟨?_, List.pairwise_cons.mpr ⟨?_, areasSet.apart⟩, ?_, ?_⟩
  · exact range.outside.mapped range.mapped areasSet.mapped
  · intro area member
    have notEmpty := areasSet.nonempty area member
    by_contra notApart
    simp only [AreasApart, not_or, not_le] at notApart
    by_cases later : index ≤ area.1
    · exact overlaps area member area.1 (by omega) (by omega)
    · exact overlaps area member index (by omega) (by omega)
  · intro area member position above below
    by_cases inNew : index ≤ position ∧ position < index + nr
    · exact range.inside position inNew.1 inNew.2
    · rcases List.mem_cons.mp member with rfl | member
      · exact absurd ⟨above, below⟩ inNew
      · rw [range.elsewhere position (by omega)]
        exact areasSet.isSet area member position above below
  · simpa [positive] using areasSet.nonempty

/-- In every run the areas are apart and set. -/
theorem AreasReach.areasSet
    (mapped : memory.longs.Mapped map words)
    (reach : AreasReach map words memory after areas) :
    AreasSet map words after areas := by
  induction reach with
  | start =>
      exact ⟨mapped, .nil, by simp, by simp⟩
  | @set before between after areas size start result nr exponent _ fits
      small positive bound found success _ stored areasSet =>
      have searched :=
        (ensures_bitmapFindNextZeroArea (areasSet.mapped.mono fits) small
          positive bound).of_returns found
      obtain ⟨rfl, firstFit⟩ := searched
      rcases firstFit with ⟨area, -⟩ | ⟨-, beyond⟩
      · have inside := area.inside
        have covered :
            result.toNat / 64 + coveringWords result.toNat nr.toNat ≤
              words := by
          simp only [bitsToLongs] at fits
          simp only [coveringWords]
          split
          · omega
          · omega
        have range :=
          (ensures_bitmapSet (areasSet.mapped.drop covered)).of_returns
            stored
        exact areasSet.set positive area.clear range
      · omega

/--
`bitmap_find_next_zero_area` finds the first area that fits, and the areas that
are found and set in a run never overlap.
-/
theorem bitmapFindNextZeroArea_firstFit
    (mapped : memory.longs.Mapped map words) :
    (∀ (size start : BitVec 64) (nr : BitVec 32) (exponent : Nat),
      bitsToLongs size.toNat ≤ words →
      size.toNat ≤ 2 ^ 63 →
      1 ≤ nr.toNat →
      exponent ≤ 63 →
      (bitmapFindNextZeroArea map size start nr
        (powerMask exponent)).Ensures memory fun result after =>
          after = memory ∧
            FirstFit memory map size.toNat start.toNat nr.toNat exponent
              result.toNat) ∧
      ∀ after areas,
        AreasReach map words memory after areas →
        areas.Pairwise AreasApart := by
  constructor
  · intro size start nr exponent fits small positive bound
    exact ensures_bitmapFindNextZeroArea (mapped.mono fits) small positive
      bound
  · intro after areas reach
    exact (reach.areasSet mapped).apart

/-- A word whose two lowest bits are set. -/
def lowBits : CMemory where
  longs := .ofList [3]
  chars := .ofList []

/-- The first area of five clear bits that is aligned to four is at four. -/
theorem bitmapFindNextZeroArea_of_sample :
    (bitmapFindNextZeroArea 0 64 0 5 (powerMask 2)).Ensures lowBits
        (fun result after =>
          after = lowBits ∧ FirstFit lowBits 0 64 0 5 2 result.toNat) ∧
      ∀ after areas,
        AreasReach 0 1 lowBits after areas →
        areas.Pairwise AreasApart := by
  have mapped : lowBits.longs.Mapped 0 1 := Region.mapped_ofList le_rfl
  obtain ⟨firstFit, apart⟩ := bitmapFindNextZeroArea_firstFit mapped
  exact ⟨firstFit 64 0 5 2 (by decide) (by decide) (by decide) (by decide),
    apart⟩

end Runs

end LibKern.Bitmap
