import LibKern.BitmapOps
import LibKern.TwoRuns

namespace LibKern.Bitmap

/-!
# Mapping bitmaps

`bitmap_remap`, `bitmap_bitremap`, `bitmap_onto` and `bitmap_fold` read their
arguments bit by bit, and they only write single bits.  So two runs of them stay
in step as long as the used bits of the arguments agree.  The arguments may even
overlap.
-/

open Program

/-- These bitmaps can be accessed, and their used bits agree. -/
def Agree
    (bits : Nat)
    (bitmaps : List Int)
    (one other : CMemory) : Prop :=
  ∀ bitmap ∈ bitmaps,
    one.longs.Mapped bitmap (bitsToLongs bits) ∧
      other.longs.Mapped bitmap (bitsToLongs bits) ∧
      ∀ index < bits,
        one.longs.bit bitmap index = other.longs.bit bitmap index

section Reads

variable {one other : CMemory}
variable {bits : Nat}
variable {bitmaps : List Int}
variable {bitmap : Int}

/-- The lowest set bit only depends on the used bits. -/
theorem FirstSet.agree
    {size offset result otherResult : Nat}
    {longs otherLongs : Region (BitVec 64)}
    (same :
      ∀ index < size,
        longs.bit bitmap index = otherLongs.bit bitmap index)
    (isFirst : FirstSet longs bitmap size offset result)
    (otherFirst : FirstSet otherLongs bitmap size offset otherResult) :
    result = otherResult := by
  refine isFirst.unique ⟨otherFirst.atMost, ?_, ?_⟩
  · intro index reached below
    have bound := otherFirst.atMost
    rw [same index (by omega)]
    exact otherFirst.clear index reached below
  · intro below
    rw [same _ below]
    exact otherFirst.found below

/-- Both runs find the same first bit. -/
theorem Agree.findFirstBit
    (agree : Agree bits bitmaps one other)
    (isMember : bitmap ∈ bitmaps) :
    (findFirstBit bitmap bits).Twin one other
      fun result after otherAfter =>
        after = one ∧ otherAfter = other ∧ result ≤ bits := by
  obtain ⟨mapped, otherMapped, same⟩ := agree bitmap isMember
  refine .of_ensures (ensures_findFirstBit mapped)
    (ensures_findFirstBit otherMapped) ?_
  intro result after otherResult otherAfter isFirst otherFirst
  obtain ⟨rfl, isFirst⟩ := isFirst
  obtain ⟨rfl, otherFirst⟩ := otherFirst
  exact ⟨isFirst.agree same otherFirst, rfl, rfl, isFirst.atMost⟩

/-- Both runs find the same next bit. -/
theorem Agree.findNextBit
    {offset : Nat}
    (agree : Agree bits bitmaps one other)
    (isMember : bitmap ∈ bitmaps) :
    (findNextBit bitmap bits offset).Twin one other
      fun result after otherAfter =>
        after = one ∧ otherAfter = other ∧ result ≤ bits ∧
          (result < bits → offset ≤ result) := by
  obtain ⟨mapped, otherMapped, same⟩ := agree bitmap isMember
  refine .of_ensures (ensures_findNextBit mapped)
    (ensures_findNextBit otherMapped) ?_
  intro result after otherResult otherAfter isFirst otherFirst
  obtain ⟨rfl, isFirst⟩ := isFirst
  obtain ⟨rfl, otherFirst⟩ := otherFirst
  exact ⟨isFirst.agree same otherFirst, rfl, rfl, isFirst.atMost,
    fun below => (isFirst.found below).1⟩

/-- `test_bit` tests one bit. -/
theorem ensures_testBit
    {memory : CMemory}
    {nr : Nat}
    (mapped : memory.longs.Mapped bitmap (bitsToLongs bits))
    (below : nr < bits) :
    (testBit nr bitmap).Ensures memory fun result after =>
      after = memory ∧ result = memory.longs.bit bitmap nr := by
  obtain ⟨word, atWord⟩ := mapped (nr / 64) (by
    simp only [bitsToLongs]
    omega)
  simp only [testBit, ensures_bind, ensures_loadLong, ensures_pure, atWord,
    Option.some.injEq, exists_eq_left']
  refine ⟨trivial, ?_⟩
  rw [Region.bit_of_cell atWord rfl, Bool.eq_iff_iff, decide_eq_true_iff,
    BitVec.and_comm]
  exact and_singleBit_ne_zero_iff (by omega)

/-- Both runs read the same bit. -/
theorem Agree.testBit
    {nr : Nat}
    (agree : Agree bits bitmaps one other)
    (isMember : bitmap ∈ bitmaps)
    (below : nr < bits) :
    (testBit nr bitmap).Twin one other fun _ after otherAfter =>
      after = one ∧ otherAfter = other := by
  obtain ⟨mapped, otherMapped, same⟩ := agree bitmap isMember
  refine .of_ensures (ensures_testBit mapped below)
    (ensures_testBit otherMapped below) ?_
  intro result after otherResult otherAfter isResult otherIsResult
  obtain ⟨rfl, rfl⟩ := isResult
  obtain ⟨rfl, rfl⟩ := otherIsResult
  exact ⟨same nr below, rfl, rfl⟩

/-- Both runs compute the same weight. -/
theorem Agree.bitmapWeight
    (agree : Agree bits bitmaps one other)
    (isMember : bitmap ∈ bitmaps) :
    (bitmapWeight bitmap bits).Twin one other fun _ after otherAfter =>
      after = one ∧ otherAfter = other := by
  obtain ⟨mapped, otherMapped, same⟩ := agree bitmap isMember
  refine .of_ensures (ensures_bitmapWeight mapped)
    (ensures_bitmapWeight otherMapped) ?_
  intro w after otherW otherAfter isWeight otherWeight
  obtain ⟨rfl, rfl⟩ := isWeight
  obtain ⟨rfl, rfl⟩ := otherWeight
  exact ⟨weightOf_congr same, rfl, rfl⟩

/-- The loop of `bitmap_pos_to_ord` in both runs. -/
theorem Agree.countBelow
    {pos : Int}
    {start ord : Nat}
    (agree : Agree bits bitmaps one other)
    (isMember : bitmap ∈ bitmaps)
    (inside : pos < bits) :
    (loop (countBelow bitmap pos bits) (start, ord)).Twin one other
      fun _ after otherAfter => after = one ∧ otherAfter = other := by
  refine .loop
    (fun _ after otherAfter => after = one ∧ otherAfter = other)
    (fun vars => bits - vars.1) ?_ ⟨rfl, rfl⟩
  intro vars after otherAfter same
  obtain ⟨i, ord⟩ := vars
  obtain ⟨rfl, rfl⟩ := same
  rw [Bitmap.countBelow]
  split
  · rename_i below
    refine .bind ((agree.findNextBit isMember).weaken ?_)
    intro next after otherAfter found
    obtain ⟨rfl, rfl, atMost, atLeast⟩ := found
    rw [twin_pure]
    refine ⟨?_, rfl, rfl⟩
    dsimp only
    omega
  · rw [twin_pure]
    exact ⟨rfl, rfl⟩

/-- Both runs find the same ordinal of a position. -/
theorem Agree.bitmapPosToOrd
    (agree : Agree bits bitmaps one other)
    (isMember : bitmap ∈ bitmaps)
    (pos : Int) :
    (bitmapPosToOrd bitmap pos bits).Twin one other
      fun _ after otherAfter => after = one ∧ otherAfter = other := by
  rw [Bitmap.bitmapPosToOrd]
  split
  · rw [twin_pure]
    exact ⟨rfl, rfl⟩
  · rename_i inside
    refine .bind ((agree.testBit isMember (by omega)).weaken ?_)
    intro isSet after otherAfter same
    obtain ⟨rfl, rfl⟩ := same
    split
    · rw [twin_pure]
      exact ⟨rfl, rfl⟩
    · refine .bind ((agree.findFirstBit isMember).weaken ?_)
      intro first after otherAfter found
      obtain ⟨rfl, rfl, -⟩ := found
      refine .bind ((agree.countBelow isMember (by omega)).weaken ?_)
      intro ord after otherAfter same
      rw [twin_pure]
      exact same

/-- The loop of `bitmap_ord_to_pos` in both runs. -/
theorem Agree.skipSetBits
    {start ord : Nat}
    (agree : Agree bits bitmaps one other)
    (isMember : bitmap ∈ bitmaps) :
    (loop (skipSetBits bitmap bits) (start, ord)).Twin one other
      fun _ after otherAfter => after = one ∧ otherAfter = other := by
  refine .loop
    (fun _ after otherAfter => after = one ∧ otherAfter = other)
    (fun vars => vars.2) ?_ ⟨rfl, rfl⟩
  intro vars after otherAfter same
  obtain ⟨i, ord⟩ := vars
  obtain ⟨rfl, rfl⟩ := same
  rw [Bitmap.skipSetBits]
  split
  · refine .bind ((agree.findNextBit isMember).weaken ?_)
    intro next after otherAfter found
    obtain ⟨rfl, rfl, -⟩ := found
    rw [twin_pure]
    refine ⟨?_, rfl, rfl⟩
    dsimp only
    omega
  · rw [twin_pure]
    exact ⟨rfl, rfl⟩

/-- Both runs find the same position of an ordinal. -/
theorem Agree.bitmapOrdToPos
    (agree : Agree bits bitmaps one other)
    (isMember : bitmap ∈ bitmaps)
    (positive : 1 ≤ bits)
    (ord : Nat) :
    (bitmapOrdToPos bitmap ord bits).Twin one other
      fun pos after otherAfter =>
        after = one ∧ otherAfter = other ∧ pos < bits := by
  rw [Bitmap.bitmapOrdToPos]
  split
  · refine .bind ((agree.findFirstBit isMember).weaken ?_)
    intro first after otherAfter found
    obtain ⟨rfl, rfl, -⟩ := found
    refine .bind ((agree.skipSetBits isMember).weaken ?_)
    intro vars after otherAfter same
    obtain ⟨rfl, rfl⟩ := same
    rw [twin_pure]
    refine ⟨rfl, rfl, ?_⟩
    split
    · rename_i found
      exact found.1
    · exact positive
  · rw [twin_pure]
    exact ⟨rfl, rfl, positive⟩

end Reads

/--
Two states that are related agree on the arguments, and they stay related when
a used bit of the result is set.
-/
structure Steady
    (bits : Nat)
    (dst : Int)
    (bitmaps : List Int)
    (related : CMemory → CMemory → Prop) : Prop where
  agree :
    ∀ one other, related one other → Agree bits bitmaps one other
  setBit :
    ∀ one other, related one other →
    ∀ nr < bits,
      (setBit nr dst).Twin one other fun _ => related

section Maps

variable {one other : CMemory}
variable {bits : Nat}
variable {bitmaps : List Int}
variable {dst src old new orig relmap : Int}
variable {related : CMemory → CMemory → Prop}

/-- `for_each_set_bit` in both runs. -/
theorem Steady.forEachSetBit
    {β : Type}
    {body : Nat → β → Program CMemory β}
    {start : β}
    (steady : Steady bits dst bitmaps related)
    (isMember : src ∈ bitmaps)
    (holds : Nat → β → Prop)
    (later :
      ∀ bit next current, holds bit current → bit ≤ next →
        holds next current)
    (step :
      ∀ bit < bits, ∀ current one other,
        holds bit current → related one other →
        (body bit current).Twin one other fun next after otherAfter =>
          holds (bit + 1) next ∧ related after otherAfter)
    (initially : holds 0 start)
    (areRelated : related one other) :
    (forEachSetBit src bits start body).Twin one other
      fun _ => related := by
  rw [Bitmap.forEachSetBit]
  refine .bind (((steady.agree one other areRelated).findFirstBit
    isMember).weaken ?_)
  intro first after otherAfter found
  obtain ⟨rfl, rfl, -⟩ := found
  refine .loop
    (fun vars one other => holds vars.1 vars.2 ∧ related one other)
    (fun vars => bits - vars.1) ?_
    ⟨later 0 first start initially (Nat.zero_le _), areRelated⟩
  intro vars one other invariant
  obtain ⟨bit, current⟩ := vars
  obtain ⟨isHolding, areRelated⟩ := invariant
  rw [eachSetBit]
  split
  · rename_i below
    refine .bind ((step bit below current one other isHolding
      areRelated).weaken ?_)
    intro next after otherAfter result
    obtain ⟨stillHolding, stillRelated⟩ := result
    refine .bind (((steady.agree after otherAfter
      stillRelated).findNextBit isMember).weaken ?_)
    intro nextBit after otherAfter found
    obtain ⟨rfl, rfl, atMost, atLeast⟩ := found
    have further : bit + 1 ≤ nextBit := by
      omega
    rw [twin_pure]
    refine ⟨?_, later _ nextBit next stillHolding further, stillRelated⟩
    dsimp only
    omega
  · rw [twin_pure]
    exact areRelated

/-- `bitmap_remap` in both runs. -/
theorem Steady.bitmapRemap
    (steady : Steady bits dst bitmaps related)
    (positive : 1 ≤ bits)
    (hasSrc : src ∈ bitmaps)
    (hasOld : old ∈ bitmaps)
    (hasNew : new ∈ bitmaps)
    (different : dst ≠ src)
    (zeroed :
      (bitmapZero dst bits).Twin one other fun _ => related) :
    (bitmapRemap dst src old new bits).Twin one other
      fun _ => related := by
  rw [Bitmap.bitmapRemap, if_neg different]
  refine .bind (zeroed.weaken ?_)
  intro _ one other areRelated
  refine .bind (((steady.agree one other areRelated).bitmapWeight
    hasNew).weaken ?_)
  intro w after otherAfter same
  obtain ⟨rfl, rfl⟩ := same
  refine steady.forEachSetBit hasSrc (fun _ _ => True)
    (fun _ _ _ _ _ => trivial) ?_ trivial areRelated
  intro oldbit below _ one other _ areRelated
  have agree := steady.agree one other areRelated
  refine .bind ((agree.bitmapPosToOrd hasOld oldbit).weaken ?_)
  intro n after otherAfter same
  obtain ⟨rfl, rfl⟩ := same
  split
  · exact (steady.setBit _ _ areRelated oldbit below).weaken
      fun _ _ _ stillRelated => ⟨trivial, stillRelated⟩
  · refine .bind ((agree.bitmapOrdToPos hasNew positive _).weaken ?_)
    intro pos after otherAfter found
    obtain ⟨rfl, rfl, inside⟩ := found
    exact (steady.setBit _ _ areRelated pos inside).weaken
      fun _ _ _ stillRelated => ⟨trivial, stillRelated⟩

/-- `bitmap_onto` in both runs. -/
theorem Steady.bitmapOnto
    (steady : Steady bits dst bitmaps related)
    (hasOrig : orig ∈ bitmaps)
    (hasRelmap : relmap ∈ bitmaps)
    (different : dst ≠ orig)
    (zeroed :
      (bitmapZero dst bits).Twin one other fun _ => related) :
    (bitmapOnto dst orig relmap bits).Twin one other
      fun _ => related := by
  rw [Bitmap.bitmapOnto, if_neg different]
  refine .bind (zeroed.weaken ?_)
  intro _ one other areRelated
  refine .bind ((steady.forEachSetBit hasRelmap (fun n m => m ≤ n)
    (fun _ _ _ _ _ => by omega) ?_ (Nat.zero_le _) areRelated).weaken
    fun _ _ _ stillRelated => twin_pure.mpr stillRelated)
  intro n below m one other atMost areRelated
  have agree := steady.agree one other areRelated
  refine .bind ((agree.testBit hasOrig (by omega)).weaken ?_)
  intro isSet after otherAfter same
  obtain ⟨rfl, rfl⟩ := same
  refine .bind ?_
  rw [onlyIf]
  split
  · refine (steady.setBit _ _ areRelated n below).weaken ?_
    intro _ after otherAfter stillRelated
    rw [twin_pure]
    exact ⟨by omega, stillRelated⟩
  · rw [twin_pure, twin_pure]
    exact ⟨by omega, areRelated⟩

/-- `bitmap_fold` in both runs. -/
theorem Steady.bitmapFold
    {sz : Nat}
    (steady : Steady bits dst bitmaps related)
    (hasOrig : orig ∈ bitmaps)
    (different : dst ≠ orig)
    (zeroed :
      (bitmapZero dst bits).Twin one other fun _ => related) :
    (bitmapFold dst orig sz bits).Twin one other fun _ => related := by
  rw [Bitmap.bitmapFold, if_neg different]
  refine .bind (zeroed.weaken ?_)
  intro _ one other areRelated
  refine steady.forEachSetBit hasOrig (fun _ _ => True)
    (fun _ _ _ _ _ => trivial) ?_ trivial areRelated
  intro oldbit below _ one other _ areRelated
  have inside : oldbit % sz < bits :=
    (Nat.mod_le oldbit sz).trans_lt below
  exact (steady.setBit _ _ areRelated _ inside).weaken
    fun _ _ _ stillRelated => ⟨trivial, stillRelated⟩

/-- `bitmap_bitremap` in both runs. -/
theorem Agree.bitmapBitremap
    {oldbit : Int}
    (agree : Agree bits bitmaps one other)
    (positive : 1 ≤ bits)
    (hasOld : old ∈ bitmaps)
    (hasNew : new ∈ bitmaps) :
    (bitmapBitremap oldbit old new bits).Twin one other
      fun _ after otherAfter => after = one ∧ otherAfter = other := by
  rw [Bitmap.bitmapBitremap]
  refine .bind ((agree.bitmapWeight hasNew).weaken ?_)
  intro w after otherAfter same
  obtain ⟨rfl, rfl⟩ := same
  refine .bind ((agree.bitmapPosToOrd hasOld oldbit).weaken ?_)
  intro n after otherAfter same
  obtain ⟨rfl, rfl⟩ := same
  split
  · rw [twin_pure]
    exact ⟨rfl, rfl⟩
  · refine .bind ((agree.bitmapOrdToPos hasNew positive _).weaken ?_)
    intro pos after otherAfter found
    rw [twin_pure]
    exact ⟨found.1, found.2.1⟩

/-- Setting a used bit keeps the used bits alike. -/
theorem steady_agree
    (isMember : dst ∈ bitmaps) :
    Steady bits dst bitmaps (Agree bits bitmaps) where
  agree _ _ agree := agree
  setBit := by
    intro one other agree nr below
    have inside : nr / 64 < bitsToLongs bits := by
      simp only [bitsToLongs]
      omega
    obtain ⟨mapped, otherMapped, -⟩ := agree dst isMember
    refine .of_ensures (ensures_setBit_overlap mapped inside)
      (ensures_setBit_overlap otherMapped inside) ?_
    intro _ after _ otherAfter result otherResult
    obtain ⟨-, -, stillMapped, isBit⟩ := result
    obtain ⟨-, -, otherStillMapped, otherIsBit⟩ := otherResult
    refine ⟨rfl, fun bitmap isBitmap => ?_⟩
    obtain ⟨mapped, otherMapped, same⟩ := agree bitmap isBitmap
    refine ⟨stillMapped _ _ mapped, otherStillMapped _ _ otherMapped, ?_⟩
    intro index used
    rw [isBit, otherIsBit, same index used]

/-- Clearing the result makes it alike as well. -/
theorem Agree.bitmapZero
    (agree : Agree bits bitmaps one other)
    (mapped : one.longs.Mapped dst (bitsToLongs bits))
    (otherMapped : other.longs.Mapped dst (bitsToLongs bits)) :
    (bitmapZero dst bits).Twin one other
      fun _ => Agree bits (dst :: bitmaps) := by
  refine .of_ensures (ensures_clearLongs mapped)
    (ensures_clearLongs otherMapped) ?_
  intro _ after _ otherAfter cleared otherCleared
  obtain ⟨-, stillMapped, same, isZero⟩ := cleared
  obtain ⟨-, otherStillMapped, otherSame, otherIsZero⟩ := otherCleared
  refine ⟨rfl, ?_⟩
  intro bitmap isBitmap
  rw [List.mem_cons] at isBitmap
  rcases isBitmap with rfl | isBitmap
  · refine ⟨stillMapped, otherStillMapped, ?_⟩
    intro index used
    have below : index / 64 < bitsToLongs bits := by
      simp only [bitsToLongs]
      omega
    rw [Region.bit_of_cell (isZero _ below) rfl,
      Region.bit_of_cell (otherIsZero _ below) rfl]
  · obtain ⟨mapped, otherMapped, sameBits⟩ := agree bitmap isBitmap
    refine ⟨same.mapped stillMapped mapped,
      otherSame.mapped otherStillMapped otherMapped, ?_⟩
    intro index used
    by_cases outside :
        bitmap + (index / 64 : Nat) < dst ∨
          dst + bitsToLongs bits ≤ bitmap + (index / 64 : Nat)
    · rw [Region.bit_congr (same _ outside),
        Region.bit_congr (otherSame _ outside)]
      exact sameBits index used
    · obtain ⟨word, isWord⟩ :=
        Int.eq_ofNat_of_zero_le
          (by omega : 0 ≤ bitmap + (index / 64 : Nat) - dst)
      have position : bitmap + (index / 64 : Nat) = dst + word := by
        omega
      rw [Region.bit, Region.bit, position, isZero word (by omega),
        otherIsZero word (by omega)]

end Maps

end LibKern.Bitmap
