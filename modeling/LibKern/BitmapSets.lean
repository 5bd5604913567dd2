import LibKern.BitmapOps
import LibKern.BitWeight
import Mathlib.Data.Finset.SymmDiff

namespace LibKern.Bitmap

/-!
# Bitmaps as finite sets

The used bits of a bitmap are a finite set of positions.  The operations that
combine bitmaps are operations on these sets, the comparisons decide relations
between them, and the weight of a bitmap is the size of its set.
-/

open Program

/-- The positions of the used bits that are set. -/
def view
    (longs : Region (BitVec 64))
    (bitmap : Int)
    (bits : Nat) : Finset Nat :=
  (Finset.range bits).filter fun index => longs.bit bitmap index = true

@[simp] theorem mem_view
    {longs : Region (BitVec 64)}
    {bitmap : Int}
    {bits index : Nat} :
    index ∈ view longs bitmap bits ↔
      index < bits ∧ longs.bit bitmap index = true := by
  simp [view]

/-- The operations with a result bitmap, as operations on sets. -/
structure CombinesSets
    (memory : CMemory)
    (dst bitmap1 bitmap2 : Int)
    (bits : Nat) : Prop where
  and :
    (bitmapAnd dst bitmap1 bitmap2 bits).Ensures memory fun _ after =>
      view after.longs dst bits =
        view memory.longs bitmap1 bits ∩ view memory.longs bitmap2 bits
  or :
    (bitmapOr dst bitmap1 bitmap2 bits).Ensures memory fun _ after =>
      view after.longs dst bits =
        view memory.longs bitmap1 bits ∪ view memory.longs bitmap2 bits
  xor :
    (bitmapXor dst bitmap1 bitmap2 bits).Ensures memory fun _ after =>
      view after.longs dst bits =
        symmDiff (view memory.longs bitmap1 bits)
          (view memory.longs bitmap2 bits)
  andnot :
    (bitmapAndnot dst bitmap1 bitmap2 bits).Ensures memory fun _ after =>
      view after.longs dst bits =
        view memory.longs bitmap1 bits \ view memory.longs bitmap2 bits
  complement :
    (bitmapComplement dst bitmap1 bits).Ensures memory fun _ after =>
      view after.longs dst bits =
        Finset.range bits \ view memory.longs bitmap1 bits

/-- The comparisons, as relations between sets. -/
structure DecidesSets
    (memory : CMemory)
    (bitmap1 bitmap2 : Int)
    (bits : Nat) : Prop where
  empty :
    (bitmapEmpty bitmap1 bits).Ensures memory fun result after =>
      after = memory ∧
        (result = true ↔ view memory.longs bitmap1 bits = ∅)
  full :
    (bitmapFull bitmap1 bits).Ensures memory fun result after =>
      after = memory ∧
        (result = true ↔
          view memory.longs bitmap1 bits = Finset.range bits)
  equal :
    (bitmapEqual bitmap1 bitmap2 bits).Ensures memory fun result after =>
      after = memory ∧
        (result = true ↔
          view memory.longs bitmap1 bits =
            view memory.longs bitmap2 bits)
  intersects :
    (bitmapIntersects bitmap1 bitmap2 bits).Ensures memory
      fun result after =>
        after = memory ∧
          (result = true ↔
            (view memory.longs bitmap1 bits ∩
              view memory.longs bitmap2 bits).Nonempty)
  subset :
    (bitmapSubset bitmap1 bitmap2 bits).Ensures memory fun result after =>
      after = memory ∧
        (result = true ↔
          view memory.longs bitmap1 bits ⊆
            view memory.longs bitmap2 bits)

section Sets

variable {memory : CMemory}
variable {dst bitmap1 bitmap2 : Int}
variable {bits : Nat}

/-- The set of a bitmap that has been written. -/
private theorem Becomes.mem_view_iff
    {value : Nat → Bool}
    {after : CMemory}
    {index : Nat}
    (becomes : Becomes memory dst bits value after) :
    index ∈ view after.longs dst bits ↔
      index < bits ∧ value index = true := by
  rw [mem_view, and_congr_right_iff]
  intro below
  rw [becomes.isValue index (by simp only [bitsToLongs]; omega)]

/-- The operations that combine bitmaps combine their sets. -/
theorem combinesSets
    (mapped : memory.longs.Mapped dst (bitsToLongs bits))
    (mapped1 : memory.longs.Mapped bitmap1 (bitsToLongs bits))
    (mapped2 : memory.longs.Mapped bitmap2 (bitsToLongs bits))
    (apart1 : SameOrApart dst bitmap1 (bitsToLongs bits))
    (apart2 : SameOrApart dst bitmap2 (bitsToLongs bits)) :
    CombinesSets memory dst bitmap1 bitmap2 bits where
  and := by
    refine (ensures_combineAnyWord bitwise_and mapped mapped1 mapped2
      apart1 apart2).weaken ?_
    intro _ after result
    ext index
    rw [result.1.mem_view_iff, Finset.mem_inter, mem_view, mem_view,
      combinedBits, Bool.and_eq_true]
    tauto
  or := by
    refine (ensures_combineWords bitwise_or mapped mapped1 mapped2
      apart1 apart2).weaken ?_
    intro _ after becomes
    ext index
    rw [becomes.mem_view_iff, Finset.mem_union, mem_view, mem_view,
      combinedBits, Bool.or_eq_true]
    tauto
  xor := by
    refine (ensures_combineWords bitwise_xor mapped mapped1 mapped2
      apart1 apart2).weaken ?_
    intro _ after becomes
    ext index
    rw [becomes.mem_view_iff, Finset.mem_symmDiff, mem_view, mem_view,
      combinedBits]
    cases memory.longs.bit bitmap1 index <;>
      cases memory.longs.bit bitmap2 index <;>
      simp
  andnot := by
    refine (ensures_combineAnyWord bitwise_andnot mapped mapped1 mapped2
      apart1 apart2).weaken ?_
    intro _ after result
    ext index
    rw [result.1.mem_view_iff, Finset.mem_sdiff, mem_view, mem_view,
      combinedBits]
    cases memory.longs.bit bitmap1 index <;>
      cases memory.longs.bit bitmap2 index <;>
      simp
  complement := by
    refine (ensures_bitmapComplement mapped mapped1 apart1).weaken ?_
    intro _ after becomes
    ext index
    rw [becomes.mem_view_iff, Finset.mem_sdiff, Finset.mem_range, mem_view,
      Bool.and_eq_true, decide_eq_true_eq]
    cases memory.longs.bit bitmap1 index <;> simp

/-- The comparisons of bitmaps compare their sets. -/
theorem decidesSets
    (mapped1 : memory.longs.Mapped bitmap1 (bitsToLongs bits))
    (mapped2 : memory.longs.Mapped bitmap2 (bitsToLongs bits)) :
    DecidesSets memory bitmap1 bitmap2 bits where
  empty := by
    refine (ensures_bitmapEmpty mapped1).weaken ?_
    intro result after isResult
    refine ⟨isResult.1, isResult.2.trans ?_⟩
    simp [view, Finset.filter_eq_empty_iff]
  full := by
    refine (ensures_bitmapFull mapped1).weaken ?_
    intro result after isResult
    refine ⟨isResult.1, isResult.2.trans ?_⟩
    simp [view, Finset.filter_eq_self]
  equal := by
    refine (ensures_bitmapEqual mapped1 mapped2).weaken ?_
    intro result after isResult
    refine ⟨isResult.1, isResult.2.trans ?_⟩
    rw [Finset.ext_iff]
    refine forall_congr' fun index => ?_
    rw [mem_view, mem_view, and_congr_right_iff, Bool.coe_iff_coe]
  intersects := by
    refine (ensures_bitmapIntersects mapped1 mapped2).weaken ?_
    intro result after isResult
    refine ⟨isResult.1, isResult.2.trans ?_⟩
    refine exists_congr fun index => ?_
    rw [Finset.mem_inter, mem_view, mem_view]
    tauto
  subset := by
    refine (ensures_bitmapSubset mapped1 mapped2).weaken ?_
    intro result after isResult
    refine ⟨isResult.1, isResult.2.trans ?_⟩
    rw [Finset.subset_iff]
    refine forall_congr' fun index => ?_
    rw [mem_view, mem_view]
    tauto

/-- The ones of the first words are used bits below a position. -/
private theorem sum_hweight64
    (longs : Region (BitVec 64))
    {done : Nat}
    (below : done ≤ bitsToLongs bits) :
    ((List.range done).map fun k =>
        (hweight64 (usedWord longs bitmap1 bits k)).toNat).sum =
      ((List.range (done * 64)).map fun index =>
        (decide (index < bits) && longs.bit bitmap1 index).toNat).sum := by
  induction done with
  | zero =>
      simp
  | succ done inductionHypothesis =>
      have weight :
          (hweight64 (usedWord longs bitmap1 bits done)).toNat =
            ((List.range 64).map fun index =>
              (decide (done * 64 + index < bits) &&
                longs.bit bitmap1 (done * 64 + index)).toNat).sum := by
        rw [toNat_hweight64, ones, ← sum_bits_below]
        congr 1
        refine List.map_congr_left fun index member => ?_
        rw [getLsbD_usedWord below (List.mem_range.mp member)]
      rw [List.range_succ, List.map_append, List.sum_append,
        inductionHypothesis (by omega), Nat.succ_mul, List.range_add,
        List.map_append, List.sum_append, List.map_map]
      simp [weight, Function.comp_def]

/-- The sum of the weights of the words is the size of the set. -/
theorem weightOf_eq_card
    (longs : Region (BitVec 64))
    (bitmap : Int)
    (bits : Nat) :
    weightOf longs bitmap bits = (view longs bitmap bits).card := by
  rw [weightOf, sum_hweight64 longs le_rfl, sum_bits_below]
  congr 1
  ext index
  have enough : bits ≤ bitsToLongs bits * 64 := by
    simp only [bitsToLongs]
    omega
  simp only [Finset.mem_filter, Finset.mem_range, Bool.and_eq_true,
    decide_eq_true_eq, mem_view]
  constructor
  · intro inside
    exact inside.2
  · intro inside
    exact ⟨by omega, inside⟩

/--
The used bits of bitmaps behave as finite sets, and the weight of a bitmap is
the size of its set.
-/
theorem bitmaps_behave_as_sets
    (mapped : memory.longs.Mapped dst (bitsToLongs bits))
    (mapped1 : memory.longs.Mapped bitmap1 (bitsToLongs bits))
    (mapped2 : memory.longs.Mapped bitmap2 (bitsToLongs bits))
    (apart1 : SameOrApart dst bitmap1 (bitsToLongs bits))
    (apart2 : SameOrApart dst bitmap2 (bitsToLongs bits)) :
    CombinesSets memory dst bitmap1 bitmap2 bits ∧
      DecidesSets memory bitmap1 bitmap2 bits ∧
      (bitmapWeight bitmap1 bits).Ensures memory (fun w after =>
        after = memory ∧ w = (view memory.longs bitmap1 bits).card) ∧
      (∀ word, (hweight64 word).toNat = (ones word).card) ∧
      ∀ word, (hweight32 word).toNat = (ones word).card := by
  refine ⟨combinesSets mapped mapped1 mapped2 apart1 apart2,
    decidesSets mapped1 mapped2, ?_, toNat_hweight64, toNat_hweight32⟩
  rw [← weightOf_eq_card]
  exact ensures_bitmapWeight mapped1

end Sets

section Sample

/-- Three bitmaps of two words each, the first of which is the result. -/
def threeBitmaps : CMemory where
  longs := .ofList [0, 0, 5, 1, 6, 3]
  chars := .ofList []

/-- The bitmaps of `threeBitmaps` behave as sets of positions below 66. -/
theorem bitmaps_behave_as_sets_of_sample :
    CombinesSets threeBitmaps 0 2 4 66 ∧
      DecidesSets threeBitmaps 2 4 66 ∧
      (bitmapWeight 2 66).Ensures threeBitmaps fun w after =>
        after = threeBitmaps ∧ w = 3 := by
  have all : threeBitmaps.longs.Mapped 0 6 := Region.mapped_ofList le_rfl
  have size : bitsToLongs 66 = 2 := rfl
  have mapped
      (base : Nat)
      (below : base + 2 ≤ 6) :
      threeBitmaps.longs.Mapped base (bitsToLongs 66) := by
    simpa [size] using all.drop below
  have apart
      (base : Nat)
      (above : 2 ≤ base) :
      SameOrApart (0 : Nat) base (bitsToLongs 66) := by
    refine .inr (.inl ?_)
    omega
  obtain ⟨combines, decides, weight, -⟩ :=
    bitmaps_behave_as_sets (mapped 0 (by decide)) (mapped 2 (by decide))
      (mapped 4 (by decide)) (apart 2 (by decide)) (apart 4 (by decide))
  exact ⟨combines, decides, weight⟩

end Sample

end LibKern.Bitmap
