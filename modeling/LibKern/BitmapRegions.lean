import LibKern.BitmapOps

namespace LibKern.Bitmap

/-!
# Allocating regions of a bitmap

`__reg_op` applies one mask to all words of a region.  A region of at least 64
bits consists of whole words, a smaller one lies within a word.  The allocated
regions are pairwise disjoint, and their bits are the bits that are set.
-/

open Program

section Mask

/-- The mask of `__reg_op` covers this many bits from an offset on. -/
theorem getLsbD_regMask
    {nbitsinlong offset index : Nat}
    (positive : 1 ≤ nbitsinlong)
    (atMost : nbitsinlong ≤ 64)
    (inside : index < 64) :
    (regMask nbitsinlong offset).getLsbD index =
      decide (offset ≤ index ∧ index < offset + nbitsinlong) := by
  obtain ⟨count, rfl⟩ : ∃ count, nbitsinlong = count + 1 :=
    ⟨nbitsinlong - 1, by omega⟩
  have power : 2 ^ count < 2 ^ 64 :=
    Nat.pow_lt_pow_right (by omega) (by omega)
  have double : 2 ^ (count + 1) ≤ 2 ^ 64 :=
    Nat.pow_le_pow_right (by omega) atMost
  have positivePower := Nat.two_pow_pos count
  have single : ((1 : BitVec 64) <<< count).toNat = 2 ^ count := by
    simpa [Nat.shiftLeft_eq] using power
  have value :
      ((1 : BitVec 64) <<< count + ((1 : BitVec 64) <<< count - 1)).toNat =
        2 ^ (count + 1) - 1 := by
    have less :
        ((1 : BitVec 64) <<< count - 1).toNat = 2 ^ count - 1 := by
      rw [BitVec.toNat_sub_of_le, single]
      · rfl
      · rw [BitVec.le_def, single]
        exact positivePower
    rw [BitVec.toNat_add, single, less, Nat.pow_succ,
      Nat.mod_eq_of_lt (by omega)]
    omega
  rw [regMask, Nat.add_sub_cancel, BitVec.getLsbD_shiftLeft,
    BitVec.getLsbD, value, Nat.testBit_two_pow_sub_one,
    decide_eq_true inside, Bool.true_and]
  by_cases reached : offset ≤ index
  · have inMask :
        index - offset < count + 1 ↔
          offset ≤ index ∧ index < offset + (count + 1) := by
      omega
    simp only [Nat.not_lt.mpr reached, decide_false, Bool.not_false,
      Bool.true_and, inMask]
  · simp [reached, Nat.not_le.mp reached]

end Mask

section Operations

variable {memory : CMemory}
variable {bitmap : Int}
variable {bits pos order : Nat}

/-- A bit that `__reg_op` looks at or changes. -/
def Touched (pos order index : Nat) : Prop :=
  (pos / 64 ≤ index / 64 ∧
    index / 64 < pos / 64 + bitsToLongs (2 ^ order)) ∧
  (pos % 64 ≤ index % 64 ∧ index % 64 < pos % 64 + min (2 ^ order) 64)

instance (pos order index : Nat) : Decidable (Touched pos order index) :=
  inferInstanceAs (Decidable (_ ∧ _))

/-- A bit of a region. -/
def InRegion (pos order index : Nat) : Prop :=
  pos ≤ index ∧ index < pos + 2 ^ order

instance (pos order index : Nat) : Decidable (InRegion pos order index) :=
  inferInstanceAs (Decidable (_ ∧ _))

/-- A power of two is a multiple of 64, or it divides 64. -/
theorem two_pow_cases (order : Nat) :
    (∃ words, 2 ^ order = 64 * words ∧ 1 ≤ words) ∨
      ∃ parts, 64 = 2 ^ order * parts ∧ 2 ≤ parts := by
  by_cases large : 6 ≤ order
  · refine .inl ⟨2 ^ (order - 6), ?_, Nat.one_le_two_pow⟩
    rw [(by rfl : 64 = 2 ^ 6), ← Nat.pow_add]
    congr 1
    omega
  · refine .inr ⟨2 ^ (6 - order), ?_, ?_⟩
    · rw [(by rfl : 64 = 2 ^ 6), ← Nat.pow_add]
      congr 1
      omega
    · calc
        2 = 2 ^ 1 := rfl
        _ ≤ 2 ^ (6 - order) := Nat.pow_le_pow_right (by omega) (by omega)

/-- A bit that is touched is before the end of the region. -/
theorem Touched.lt
    {index : Nat}
    (touched : Touched pos order index) :
    index < pos + 2 ^ order := by
  obtain ⟨⟨-, belowWord⟩, -, belowBit⟩ := touched
  simp only [bitsToLongs] at belowWord
  rcases two_pow_cases order with ⟨words, isWords, -⟩ | ⟨parts, isParts, _⟩
  · omega
  · have small : 2 ^ order ≤ 32 := by
      nlinarith
    omega

/-- The bits of an aligned region are touched. -/
theorem touched_iff
    {index : Nat}
    (aligned : 2 ^ order ∣ pos) :
    Touched pos order index ↔ InRegion pos order index := by
  obtain ⟨number, rfl⟩ := aligned
  simp only [Touched, InRegion, bitsToLongs]
  rcases two_pow_cases order with ⟨words, isWords, _⟩ | ⟨parts, isParts, _⟩
  · rw [isWords]
    have isMultiple : 64 * words * number = 64 * (words * number) := by
      rw [Nat.mul_assoc]
    rw [isMultiple]
    omega
  · have offset :
        2 ^ order * number % 64 = 2 ^ order * (number % parts) := by
      rw [isParts, Nat.mul_mod_mul_left]
    have below : number % parts + 1 ≤ parts :=
      Nat.mod_lt number (by omega)
    have fits : 2 ^ order * number % 64 + 2 ^ order ≤ 64 := by
      calc
        2 ^ order * number % 64 + 2 ^ order =
            2 ^ order * (number % parts + 1) := by
          rw [offset, Nat.mul_add, Nat.mul_one]
        _ ≤ 2 ^ order * parts := Nat.mul_le_mul_left _ below
        _ = 64 := isParts.symm
    have positive := Nat.two_pow_pos order
    generalize 2 ^ order * number = pos at fits
    omega

/-- The words of a region are words of the bitmap. -/
theorem words_le
    (inside : pos + 2 ^ order ≤ bits) :
    pos / 64 + bitsToLongs (2 ^ order) ≤ bitsToLongs bits := by
  simp only [bitsToLongs]
  rcases two_pow_cases order with ⟨words, isWords, _⟩ | ⟨parts, isParts, _⟩
  · omega
  · have small : 2 ^ order ≤ 32 := by
      nlinarith
    have positive := Nat.two_pow_pos order
    omega

/-- The index of the first word of a region. -/
private theorem tdiv_word (pos : Nat) :
    (pos : Int).tdiv 64 = (pos / 64 : Nat) :=
  Int.tdiv_eq_ediv_of_nonneg (by omega)

/-- The offset of a region in its first word. -/
private theorem sub_word (pos : Nat) :
    ((pos : Int) - (pos / 64 : Nat) * 64).toNat = pos % 64 := by
  omega

/-- The address of a word of a region. -/
private theorem word_address (bitmap : Int) (pos i : Nat) :
    bitmap + (pos / 64 : Nat) + i = bitmap + (pos / 64 + i : Nat) := by
  omega

/-- The mask covers the bits of a word that are touched. -/
theorem getLsbD_touched
    {i index : Nat}
    (below : i < bitsToLongs (2 ^ order))
    (inWord : index / 64 = pos / 64 + i) :
    (regMask (min (2 ^ order) 64) (pos % 64)).getLsbD (index % 64) =
      decide (Touched pos order index) := by
  have positive := Nat.two_pow_pos order
  have touched :
      (pos % 64 ≤ index % 64 ∧
        index % 64 < pos % 64 + min (2 ^ order) 64) ↔
        Touched pos order index :=
    (and_iff_right (by omega)).symm
  rw [getLsbD_regMask (by omega) (by omega) (by omega)]
  exact decide_eq_decide.mpr touched

/-- `REG_OP_ISFREE` looks for a bit of the region that is set. -/
theorem ensures_regOp_isFree
    (mapped : memory.longs.Mapped bitmap (bitsToLongs bits))
    (inside : pos + 2 ^ order ≤ bits) :
    (regOp bitmap pos order .isFree).Ensures memory fun ret after =>
      after = memory ∧
        (ret = 0 ↔
          ∃ index, Touched pos order index ∧
            memory.longs.bit bitmap index = true) := by
  have fits := words_le inside
  simp only [regOp, tdiv_word, sub_word, ensures_bind]
  refine (@ensures_anyUp _ _ _ _
    (fun i => ∃ index,
      index / 64 = pos / 64 + i ∧ Touched pos order index ∧
        memory.longs.bit bitmap index = true) ?_).weaken ?_
  · intro i below
    obtain ⟨word, atWord⟩ := mapped (pos / 64 + i) (by omega)
    simp only [ensures_bind, ensures_loadLong, ensures_pure, word_address,
      atWord, Option.some.injEq, exists_eq_left', decide_eq_true_iff]
    refine ⟨trivial, ?_⟩
    rw [ne_zero_iff]
    constructor
    · intro isSet
      obtain ⟨bit, inWord, isSet⟩ := isSet
      have isWord : ((pos / 64 + i) * 64 + bit) / 64 = pos / 64 + i := by
        omega
      have isBit : ((pos / 64 + i) * 64 + bit) % 64 = bit := by
        omega
      have mask := getLsbD_touched below isWord
      rw [isBit] at mask
      rw [BitVec.getLsbD_and, mask, Bool.and_eq_true,
        decide_eq_true_iff] at isSet
      refine ⟨_, isWord, isSet.2, ?_⟩
      rw [Region.bit_of_cell atWord isWord, isBit]
      exact isSet.1
    · intro isSet
      obtain ⟨index, inWord, touched, isSet⟩ := isSet
      refine ⟨index % 64, by omega, ?_⟩
      rw [Region.bit_of_cell atWord inWord] at isSet
      rw [BitVec.getLsbD_and, getLsbD_touched below inWord, isSet,
        decide_eq_true touched, Bool.and_self]
  · intro found after result
    obtain ⟨rfl, isFound⟩ := result
    rw [ensures_pure]
    refine ⟨rfl, ?_⟩
    have isZero : (if found then (0 : Int) else 1) = 0 ↔ found = true := by
      cases found <;> simp
    rw [isZero, isFound]
    constructor
    · intro isSet
      obtain ⟨i, -, index, -, touched, isSet⟩ := isSet
      exact ⟨index, touched, isSet⟩
    · intro isSet
      obtain ⟨index, touched, isSet⟩ := isSet
      have inWords := touched.1
      exact ⟨index / 64 - pos / 64, by omega, index, by omega, touched,
        isSet⟩

/-- Apply the mask to the words of a region. -/
private theorem ensures_maskWords
    {op : BitVec 64 → BitVec 64 → BitVec 64}
    {onBits : Bool → Bool → Bool}
    (bitwise : Bitwise op onBits)
    (neutral : ∀ bit, onBits bit false = bit)
    (mapped : memory.longs.Mapped bitmap (bitsToLongs bits))
    (inside : pos + 2 ^ order ≤ bits) :
    (countUp (bitsToLongs (2 ^ order)) fun i => do
      let word ← loadLong (bitmap + (pos / 64 : Nat) + i)
      storeLong (bitmap + (pos / 64 : Nat) + i)
        (op word (regMask (min (2 ^ order) 64) (pos % 64)))).Ensures
          memory fun _ =>
            Becomes memory bitmap bits fun index =>
              onBits (memory.longs.bit bitmap index)
                (decide (Touched pos order index)) := by
  have fits := words_le inside
  refine (ensures_countUp
    (fun done =>
      Becomes memory bitmap bits fun index =>
        onBits (memory.longs.bit bitmap index)
          (decide (Touched pos order index ∧
            index / 64 < pos / 64 + done))) ?_ ?_).weaken ?_
  · refine ⟨rfl, mapped, .refl, fun index _ => ?_⟩
    have notYet :
        ¬(Touched pos order index ∧ index / 64 < pos / 64 + 0) := by
      intro holds
      have reached := holds.1.1.1
      omega
    rw [decide_eq_false notYet, neutral]
  · intro i below before becomes
    obtain ⟨word, atWord⟩ := becomes.mapped (pos / 64 + i) (by omega)
    simp only [ensures_bind, ensures_loadLong, ensures_storeLong,
      word_address, atWord, Option.some.injEq, exists_eq_left',
      exists_eq', true_and]
    refine ⟨becomes.chars, becomes.mapped.write _ _,
      becomes.outside.trans (.write (by omega) _), ?_⟩
    intro index inside
    have value := becomes.isValue index inside
    rw [Region.bit_write]
    split
    · rename_i inWord
      have notYet :
          ¬(Touched pos order index ∧ index / 64 < pos / 64 + i) := by
        omega
      rw [Region.bit_of_cell atWord inWord, decide_eq_false notYet,
        neutral] at value
      rw [bitwise _ _ _ (by omega), value, getLsbD_touched below inWord]
      congr 1
      refine decide_eq_decide.mpr ?_
      rw [and_iff_left (by omega)]
    · rename_i otherWord
      rw [value]
      congr 1
      refine decide_eq_decide.mpr (and_congr_right fun touched => ?_)
      omega
  · intro _ after becomes
    refine ⟨becomes.chars, becomes.mapped, becomes.outside, ?_⟩
    intro index bound
    rw [becomes.isValue index bound]
    congr 1
    exact decide_eq_decide.mpr (and_iff_left_of_imp fun touched =>
      touched.1.2)

/-- `REG_OP_ALLOC` sets the bits of the region. -/
theorem ensures_regOp_alloc
    (mapped : memory.longs.Mapped bitmap (bitsToLongs bits))
    (inside : pos + 2 ^ order ≤ bits) :
    (regOp bitmap pos order .alloc).Ensures memory fun _ =>
      Becomes memory bitmap bits fun index =>
        memory.longs.bit bitmap index ||
          decide (Touched pos order index) := by
  simp only [regOp, tdiv_word, sub_word, ensures_bind, ensures_pure]
  exact ensures_maskWords bitwise_or Bool.or_false mapped inside

/-- `REG_OP_RELEASE` clears the bits of the region. -/
theorem ensures_regOp_release
    (mapped : memory.longs.Mapped bitmap (bitsToLongs bits))
    (inside : pos + 2 ^ order ≤ bits) :
    (regOp bitmap pos order .release).Ensures memory fun _ =>
      Becomes memory bitmap bits fun index =>
        memory.longs.bit bitmap index &&
          !decide (Touched pos order index) := by
  simp only [regOp, tdiv_word, sub_word, ensures_bind, ensures_pure]
  exact ensures_maskWords bitwise_andnot (by simp) mapped inside

end Operations

section Allocate

variable {memory : CMemory}
variable {bitmap : Int}
variable {bits pos order : Nat}

/-- All bits of a region are clear. -/
def Free
    (memory : CMemory)
    (bitmap : Int)
    (pos order : Nat) : Prop :=
  ∀ index, InRegion pos order index →
    memory.longs.bit bitmap index = false

/-- The bits of the bitmap after a region was allocated. -/
def allocated
    (memory : CMemory)
    (bitmap : Int)
    (pos order index : Nat) : Bool :=
  memory.longs.bit bitmap index || decide (InRegion pos order index)

/-- The bits of the bitmap after a region was released. -/
def released
    (memory : CMemory)
    (bitmap : Int)
    (pos order index : Nat) : Bool :=
  memory.longs.bit bitmap index && !decide (InRegion pos order index)

/-- `REG_OP_ISFREE` tests whether an aligned region is free. -/
theorem ensures_isFree
    (mapped : memory.longs.Mapped bitmap (bitsToLongs bits))
    (aligned : 2 ^ order ∣ pos)
    (inside : pos + 2 ^ order ≤ bits) :
    (regOp bitmap pos order .isFree).Ensures memory fun ret after =>
      after = memory ∧ (ret = 0 ↔ ¬Free memory bitmap pos order) := by
  refine (ensures_regOp_isFree mapped inside).weaken ?_
  intro ret after result
  refine ⟨result.1, result.2.trans ?_⟩
  simp only [Free, touched_iff aligned, not_forall, exists_prop,
    Bool.not_eq_false]

/-- `REG_OP_ALLOC` sets the bits of an aligned region. -/
theorem ensures_alloc
    (mapped : memory.longs.Mapped bitmap (bitsToLongs bits))
    (aligned : 2 ^ order ∣ pos)
    (inside : pos + 2 ^ order ≤ bits) :
    (regOp bitmap pos order .alloc).Ensures memory fun _ =>
      Becomes memory bitmap bits (allocated memory bitmap pos order) := by
  refine (ensures_regOp_alloc mapped inside).weaken ?_
  intro _ after becomes
  simp only [touched_iff aligned] at becomes
  exact becomes

/-- `bitmap_release_region` clears the bits of an aligned region. -/
theorem ensures_bitmapReleaseRegion
    (mapped : memory.longs.Mapped bitmap (bitsToLongs bits))
    (aligned : 2 ^ order ∣ pos)
    (inside : pos + 2 ^ order ≤ bits) :
    (bitmapReleaseRegion bitmap pos order).Ensures memory fun _ =>
      Becomes memory bitmap bits (released memory bitmap pos order) := by
  rw [bitmapReleaseRegion, ensures_bind]
  refine (ensures_regOp_release mapped inside).weaken ?_
  intro _ after becomes
  simp only [touched_iff aligned] at becomes
  exact ensures_pure.mpr becomes

/-- `bitmap_allocate_region` allocates an aligned region if it is free. -/
theorem ensures_bitmapAllocateRegion
    (mapped : memory.longs.Mapped bitmap (bitsToLongs bits))
    (aligned : 2 ^ order ∣ pos)
    (inside : pos + 2 ^ order ≤ bits) :
    (bitmapAllocateRegion bitmap pos order).Ensures memory
      fun status after =>
        (status = 0 ∧ Free memory bitmap pos order ∧
            Becomes memory bitmap bits (allocated memory bitmap pos order)
              after) ∨
          (status = -ebusy ∧ ¬Free memory bitmap pos order ∧
            after = memory) := by
  rw [bitmapAllocateRegion, ensures_bind]
  refine (ensures_isFree mapped aligned inside).weaken ?_
  intro ret between tested
  obtain ⟨rfl, isBusy⟩ := tested
  rw [ensures_ite]
  split
  · rename_i isZero
    exact ensures_pure.mpr (.inr ⟨rfl, isBusy.mp isZero, rfl⟩)
  · rename_i nonzero
    rw [ensures_bind]
    refine (ensures_alloc mapped aligned inside).weaken ?_
    intro _ after becomes
    have isFree := not_not.mp (mt isBusy.mpr nonzero)
    exact ensures_pure.mpr (.inl ⟨rfl, isFree, becomes⟩)

/-- The outcomes of `bitmap_find_free_region`. -/
def FoundRegion
    (memory : CMemory)
    (bitmap : Int)
    (bits order : Nat)
    (result : Int)
    (after : CMemory) : Prop :=
  (∃ pos : Nat,
    result = pos ∧ 2 ^ order ∣ pos ∧ pos + 2 ^ order ≤ bits ∧
      Free memory bitmap pos order ∧
      (∀ earlier < pos, 2 ^ order ∣ earlier →
        ¬Free memory bitmap earlier order) ∧
      Becomes memory bitmap bits (allocated memory bitmap pos order)
        after) ∨
    (result = -enomem ∧ after = memory ∧
      ∀ pos, 2 ^ order ∣ pos → pos + 2 ^ order ≤ bits →
        ¬Free memory bitmap pos order)

/-- The end of a region, which can wrap. -/
theorem end_eq_ofNat
    (bound : 2 ^ order < 2 ^ 32) :
    BitVec.ofNat 32 pos + ((1 : BitVec 32) <<< order) =
      BitVec.ofNat 32 (pos + 2 ^ order) := by
  apply BitVec.eq_of_toNat_eq
  have size : ((1 : BitVec 32) <<< order).toNat = 2 ^ order := by
    have isOne : (1 : BitVec 32).toNat = 1 := rfl
    rw [BitVec.toNat_shiftLeft, isOne, Nat.shiftLeft_eq, Nat.one_mul,
      Nat.mod_eq_of_lt bound]
  rw [BitVec.toNat_add, size, BitVec.toNat_ofNat, BitVec.toNat_ofNat]
  omega

/-- The end of a region that is still a number of type `int`. -/
theorem end_toInt
    (bound : pos + 2 ^ order < 2 ^ 31) :
    BitVec.ofNat 32 pos + ((1 : BitVec 32) <<< order) =
        BitVec.ofNat 32 (pos + 2 ^ order) ∧
      (BitVec.ofNat 32 (pos + 2 ^ order)).toInt = (pos + 2 ^ order : Nat) :=
  ⟨end_eq_ofNat (by omega), toInt_ofNat_of_lt bound⟩

/-- A position where a free region can be allocated. -/
structure FreeRegion
    (memory : CMemory)
    (bitmap : Int)
    (bits order pos : Nat) : Prop where
  aligned : 2 ^ order ∣ pos
  inside : pos + 2 ^ order ≤ bits
  free : Free memory bitmap pos order

/-- The loop of `bitmap_find_free_region` passes a region that is not free. -/
theorem ensures_findRegion_busy
    (mapped : memory.longs.Mapped bitmap (bitsToLongs bits))
    (inRange : bits < 2 ^ 31)
    (aligned : 2 ^ order ∣ pos)
    (inside : pos + 2 ^ order ≤ bits)
    (busy : ¬Free memory bitmap pos order) :
    (findRegion bitmap bits order (.ofNat 32 pos)).Ensures memory
      fun flow after =>
        flow = .next (.ofNat 32 (pos + 2 ^ order)) ∧ after = memory := by
  obtain ⟨isEnd, endValue⟩ := @end_toInt pos order (by omega)
  rw [findRegion, toInt_ofNat_of_lt (by omega)]
  simp only [isEnd, endValue]
  rw [if_pos (by omega), ensures_bind]
  refine (ensures_isFree mapped aligned inside).weaken ?_
  intro ret between tested
  obtain ⟨rfl, isBusy⟩ := tested
  rw [if_pos (isBusy.mpr busy), ensures_pure]
  exact ⟨rfl, rfl⟩

/-- The loop of `bitmap_find_free_region` allocates a region that is free. -/
theorem ensures_findRegion_free
    (mapped : memory.longs.Mapped bitmap (bitsToLongs bits))
    (inRange : bits < 2 ^ 31)
    (region : FreeRegion memory bitmap bits order pos) :
    (findRegion bitmap bits order (.ofNat 32 pos)).Ensures memory
      fun flow after =>
        flow = .done (pos : Int) ∧
          Becomes memory bitmap bits (allocated memory bitmap pos order)
            after := by
  obtain ⟨aligned, inside, free⟩ := region
  obtain ⟨isEnd, endValue⟩ := @end_toInt pos order (by omega)
  rw [findRegion, toInt_ofNat_of_lt (by omega)]
  simp only [isEnd, endValue]
  rw [if_pos (by omega), ensures_bind]
  refine (ensures_isFree mapped aligned inside).weaken ?_
  intro ret between tested
  obtain ⟨rfl, isBusy⟩ := tested
  rw [if_neg (mt isBusy.mp (not_not.mpr free)), ensures_bind]
  refine (ensures_alloc mapped aligned inside).weaken ?_
  intro _ after becomes
  exact ensures_pure.mpr ⟨rfl, becomes⟩

/-- The loop of `bitmap_find_free_region` ends behind the last region. -/
theorem ensures_findRegion_beyond
    (bound : pos + 2 ^ order < 2 ^ 31)
    (beyond : bits < pos + 2 ^ order) :
    (findRegion bitmap bits order (.ofNat 32 pos)).Ensures memory
      fun flow after =>
        flow = .done (-enomem) ∧ after = memory := by
  obtain ⟨isEnd, endValue⟩ := @end_toInt pos order bound
  rw [findRegion]
  simp only [isEnd, endValue]
  rw [if_neg (by omega), ensures_pure]
  exact ⟨rfl, rfl⟩

/-- The search is at this position: no region before it is free. -/
structure Searched
    (memory : CMemory)
    (bitmap : Int)
    (bits order pos : Nat) : Prop where
  aligned : 2 ^ order ∣ pos
  atMost : pos ≤ bits
  busy :
    ∀ earlier < pos, 2 ^ order ∣ earlier →
      ¬Free memory bitmap earlier order

/-- The search goes on to the next region. -/
theorem Searched.next
    (searched : Searched memory bitmap bits order pos)
    (inside : pos + 2 ^ order ≤ bits)
    (busy : ¬Free memory bitmap pos order) :
    Searched memory bitmap bits order (pos + 2 ^ order) := by
  refine ⟨Nat.dvd_add searched.aligned (Nat.dvd_refl _), inside, ?_⟩
  intro earlier below divides
  by_cases before : earlier < pos
  · exact searched.busy earlier before divides
  · have noDistance : earlier - pos = 0 :=
      Nat.eq_zero_of_dvd_of_lt (Nat.dvd_sub divides searched.aligned)
        (by omega)
    obtain rfl : earlier = pos := by
      omega
    exact busy

/-- The end of the region at the position of the search does not overflow. -/
theorem Searched.end_lt
    (searched : Searched memory bitmap bits order pos)
    (inRange : bits < 2 ^ 31)
    (bound :
      bits + 2 ^ order < 2 ^ 31 ∨
        ∃ other, FreeRegion memory bitmap bits order other) :
    pos + 2 ^ order < 2 ^ 31 := by
  have atMost := searched.atMost
  rcases bound with bound | ⟨other, region⟩
  · omega
  · have notBefore : pos ≤ other := by
      by_contra before
      exact searched.busy other (by omega) region.aligned region.free
    have inside := region.inside
    omega

/-- The loop of `bitmap_find_free_region` goes through the regions. -/
private theorem ensures_findRegion
    (mapped : memory.longs.Mapped bitmap (bitsToLongs bits))
    (inRange : bits < 2 ^ 31)
    (bound :
      bits + 2 ^ order < 2 ^ 31 ∨
        ∃ other, FreeRegion memory bitmap bits order other)
    (rounds : Nat)
    (enough : bits < pos + rounds)
    (searched : Searched memory bitmap bits order pos) :
    (loop (findRegion bitmap bits order) (.ofNat 32 pos)).Ensures memory
      (FoundRegion memory bitmap bits order) := by
  have positive := Nat.two_pow_pos order
  induction rounds generalizing pos with
  | zero =>
      have atMost := searched.atMost
      omega
  | succ rounds inductionHypothesis =>
      rw [ensures_loop]
      by_cases inside : pos + 2 ^ order ≤ bits
      · by_cases free : Free memory bitmap pos order
        · refine (ensures_findRegion_free mapped inRange
            ⟨searched.aligned, inside, free⟩).weaken ?_
          intro flow after result
          obtain ⟨rfl, becomes⟩ := result
          exact .inl ⟨pos, rfl, searched.aligned, inside, free,
            searched.busy, becomes⟩
        · refine (ensures_findRegion_busy mapped inRange searched.aligned
            inside free).weaken ?_
          intro flow after result
          obtain ⟨rfl, rfl⟩ := result
          exact inductionHypothesis (by omega)
            (searched.next inside free)
      · refine (ensures_findRegion_beyond
          (searched.end_lt inRange bound) (by omega)).weaken ?_
        intro flow after result
        obtain ⟨rfl, rfl⟩ := result
        refine .inr ⟨rfl, rfl, ?_⟩
        intro other divides otherInside
        exact searched.busy other (by omega) divides

/-- The search starts at the first region. -/
theorem searched_zero
    (memory : CMemory)
    (bitmap : Int)
    (bits order : Nat) :
    Searched memory bitmap bits order 0 :=
  ⟨dvd_zero _, Nat.zero_le _, by simp⟩

/-- A search that stays in range allocates the first free region. -/
theorem ensures_bitmapFindFreeRegion_inRange
    (mapped : memory.longs.Mapped bitmap (bitsToLongs bits))
    (inRange : bits < 2 ^ 31)
    (bound :
      bits + 2 ^ order < 2 ^ 31 ∨
        ∃ other, FreeRegion memory bitmap bits order other) :
    (bitmapFindFreeRegion bitmap bits order).Ensures memory
      (FoundRegion memory bitmap bits order) :=
  ensures_findRegion mapped inRange bound (bits + 1) (by omega)
    (searched_zero memory bitmap bits order)

/-- `bitmap_find_free_region` allocates the first free region. -/
theorem ensures_bitmapFindFreeRegion
    (mapped : memory.longs.Mapped bitmap (bitsToLongs bits))
    (bound : bits + 2 ^ order < 2 ^ 31) :
    (bitmapFindFreeRegion bitmap bits order).Ensures memory
      (FoundRegion memory bitmap bits order) :=
  ensures_bitmapFindFreeRegion_inRange mapped
    (Nat.lt_of_le_of_lt (Nat.le_add_right _ _) bound) (.inl bound)

/-- The outcome of a search for the first free region. -/
structure FirstFreeRegion
    (memory : CMemory)
    (bitmap : Int)
    (bits order : Nat)
    (result : Int)
    (after : CMemory) : Prop where
  found :
    ∀ pos, IsLeast {pos | FreeRegion memory bitmap bits order pos} pos →
      result = pos ∧
        ∀ index,
          after.longs.bit bitmap index =
            (memory.longs.bit bitmap index ||
              decide (InRegion pos order index))
  outside : memory.longs.SameOutside after.longs bitmap (bitsToLongs bits)
  noMemory :
    result = -enomem ↔
      ∀ pos, ¬FreeRegion memory bitmap bits order pos
  unchanged : result = -enomem → after = memory

/-- All bits after a region was allocated, also the ones behind the bitmap. -/
theorem Becomes.bit_allocated
    {after : CMemory}
    (becomes :
      Becomes memory bitmap bits (allocated memory bitmap pos order) after)
    (inside : pos + 2 ^ order ≤ bits)
    (index : Nat) :
    after.longs.bit bitmap index =
      (memory.longs.bit bitmap index ||
        decide (InRegion pos order index)) := by
  by_cases bound : index < bitsToLongs bits * 64
  · exact becomes.isValue index bound
  · have beyond : ¬InRegion pos order index := by
      simp only [bitsToLongs] at bound
      simp only [InRegion]
      omega
    rw [decide_eq_false beyond, Bool.or_false]
    apply Region.bit_congr
    apply becomes.outside
    omega

/--
`bitmap_find_free_region` allocates exactly the first free region, and it leaves
the bitmap unchanged if there is none.
-/
theorem bitmapFindFreeRegion_firstFit
    (mapped : memory.longs.Mapped bitmap (bitsToLongs bits))
    (bound : bits + 2 ^ order ≤ 2 ^ 31 - 1) :
    (bitmapFindFreeRegion bitmap bits order).Ensures memory
      (FirstFreeRegion memory bitmap bits order) := by
  refine (ensures_bitmapFindFreeRegion mapped (by omega)).weaken ?_
  intro result after outcome
  rcases outcome with
    ⟨pos, rfl, aligned, inside, free, busy, becomes⟩ |
    ⟨rfl, rfl, none⟩
  · have region : FreeRegion memory bitmap bits order pos :=
      ⟨aligned, inside, free⟩
    have least :
        IsLeast {pos | FreeRegion memory bitmap bits order pos} pos := by
      refine ⟨region, ?_⟩
      intro other otherRegion
      by_contra earlier
      exact busy other (Nat.lt_of_not_le earlier) otherRegion.aligned
        otherRegion.free
    have notError : (pos : Int) ≠ -enomem := by
      simp only [enomem]
      omega
    refine ⟨?_, becomes.outside, ?_, fun isError =>
      absurd isError notError⟩
    · intro other otherLeast
      obtain rfl := least.unique otherLeast
      exact ⟨rfl, becomes.bit_allocated inside⟩
    · constructor
      · intro isError
        exact absurd isError notError
      · intro noRegion
        exact absurd region (noRegion pos)
  · refine ⟨?_, .refl, ?_, fun _ => rfl⟩
    · intro pos least
      exact absurd least.1.free (none pos least.1.aligned least.1.inside)
    · constructor
      · intro _ pos region
        exact none pos region.aligned region.inside region.free
      · intro _
        rfl

/-- A bitmap whose first four bits are set. -/
def fourBits : CMemory where
  longs := .ofList [0xf]
  chars := .ofList []

/-- The first free region of four bits is found in `fourBits`. -/
theorem bitmapFindFreeRegion_of_sample :
    (bitmapFindFreeRegion 0 64 2).Ensures fourBits
      (FirstFreeRegion fourBits 0 64 2) :=
  bitmapFindFreeRegion_firstFit (Region.mapped_ofList (by decide))
    (by decide)

end Allocate

section Runs

/-- A region is given by its position and its order. -/
abbrev Live := List (Nat × Nat)

/-- Two regions have no bit in common. -/
def Disjoint (one other : Nat × Nat) : Prop :=
  ∀ index, ¬(InRegion one.1 one.2 index ∧ InRegion other.1 other.2 index)

variable {bitmap : Int}
variable {bits : Nat}

/-- The regions that are live after a call that may have allocated one. -/
def withRegion (result : Int) (order : Nat) (live : Live) : Live :=
  if 0 ≤ result then (result.toNat, order) :: live else live

/--
The states that are reached from an all-zero bitmap, with the live regions.
`2 ^ 31 - 1` is `INT_MAX`.
-/
inductive AllocatorReaches
    (bitmap : Int)
    (bits : Nat) : CMemory → Live → Prop where
  | start
      {memory : CMemory}
      (mapped : memory.longs.Mapped bitmap (bitsToLongs bits))
      (clear :
        ∀ index < bitsToLongs bits * 64,
          memory.longs.bit bitmap index = false) :
      AllocatorReaches bitmap bits memory []
  | find
      {memory after : CMemory}
      {live : Live}
      {order : Nat}
      {result : Int}
      (reached : AllocatorReaches bitmap bits memory live)
      (bound : bits + 2 ^ order ≤ 2 ^ 31 - 1)
      (returned :
        (bitmapFindFreeRegion bitmap bits order).Returns memory result
          after) :
      AllocatorReaches bitmap bits after (withRegion result order live)
  | allocate
      {memory after : CMemory}
      {live : Live}
      {pos order : Nat}
      {status : Int}
      (reached : AllocatorReaches bitmap bits memory live)
      (aligned : 2 ^ order ∣ pos)
      (inside : pos + 2 ^ order ≤ bits)
      (returned :
        (bitmapAllocateRegion bitmap pos order).Returns memory status
          after) :
      AllocatorReaches bitmap bits after
        (if status = 0 then (pos, order) :: live else live)
  | release
      {memory after : CMemory}
      {live : Live}
      {pos order : Nat}
      (reached : AllocatorReaches bitmap bits memory live)
      (isLive : (pos, order) ∈ live)
      (returned :
        (bitmapReleaseRegion bitmap pos order).Returns memory () after) :
      AllocatorReaches bitmap bits after (live.erase (pos, order))

/-- The live regions are disjoint, and their bits are the ones that are set. -/
structure Allocated
    (bitmap : Int)
    (bits : Nat)
    (memory : CMemory)
    (live : Live) : Prop where
  mapped : memory.longs.Mapped bitmap (bitsToLongs bits)
  aligned : ∀ region ∈ live, 2 ^ region.2 ∣ region.1
  inside : ∀ region ∈ live, region.1 + 2 ^ region.2 ≤ bits
  disjoint : live.Pairwise Disjoint
  isSet :
    ∀ index < bitsToLongs bits * 64,
      memory.longs.bit bitmap index = true ↔
        ∃ region ∈ live, InRegion region.1 region.2 index

variable {memory after : CMemory}
variable {live : Live}
variable {pos order : Nat}

/-- Allocate a free region. -/
theorem Allocated.allocate
    (isAllocated : Allocated bitmap bits memory live)
    (aligned : 2 ^ order ∣ pos)
    (inside : pos + 2 ^ order ≤ bits)
    (isFree : Free memory bitmap pos order)
    (becomes :
      Becomes memory bitmap bits (allocated memory bitmap pos order)
        after) :
    Allocated bitmap bits after ((pos, order) :: live) where
  mapped := becomes.mapped
  aligned := List.forall_mem_cons.mpr ⟨aligned, isAllocated.aligned⟩
  inside := List.forall_mem_cons.mpr ⟨inside, isAllocated.inside⟩
  disjoint := by
    refine List.pairwise_cons.mpr ⟨?_, isAllocated.disjoint⟩
    intro region isLive index inBoth
    have below := isAllocated.inside region isLive
    have bound : index < bitsToLongs bits * 64 := by
      have inRegion := inBoth.2.2
      simp only [bitsToLongs]
      omega
    have isSet :=
      (isAllocated.isSet index bound).mpr ⟨region, isLive, inBoth.2⟩
    rw [isFree index inBoth.1] at isSet
    exact absurd isSet (by simp)
  isSet := by
    intro index bound
    rw [becomes.isValue index bound, allocated, Bool.or_eq_true,
      isAllocated.isSet index bound, decide_eq_true_iff]
    simp only [List.exists_mem_cons_iff]
    exact or_comm

/-- A region that is erased is not live any more. -/
theorem disjoint_of_erase
    {region other : Nat × Nat}
    (disjoint : live.Pairwise Disjoint)
    (isLive : region ∈ live)
    (remains : other ∈ live.erase region) :
    Disjoint region other := by
  have permutes := List.perm_cons_erase isLive
  have symmetric :
      ∀ {one another : Nat × Nat},
        Disjoint one another → Disjoint another one :=
    fun apart index inBoth => apart index inBoth.symm
  exact (List.pairwise_cons.mp
    ((permutes.pairwise_iff symmetric).mp disjoint)).1 other remains

/-- Release a live region. -/
theorem Allocated.release
    (isAllocated : Allocated bitmap bits memory live)
    (isLive : (pos, order) ∈ live)
    (becomes :
      Becomes memory bitmap bits (released memory bitmap pos order)
        after) :
    Allocated bitmap bits after (live.erase (pos, order)) where
  mapped := becomes.mapped
  aligned := fun region remains =>
    isAllocated.aligned region (List.mem_of_mem_erase remains)
  inside := fun region remains =>
    isAllocated.inside region (List.mem_of_mem_erase remains)
  disjoint := isAllocated.disjoint.sublist List.erase_sublist
  isSet := by
    intro index bound
    rw [becomes.isValue index bound, released, Bool.and_eq_true,
      isAllocated.isSet index bound, Bool.not_eq_true',
      decide_eq_false_iff_not]
    constructor
    · intro holds
      obtain ⟨⟨region, isMember, inRegion⟩, notIn⟩ := holds
      refine ⟨region, ?_, inRegion⟩
      rw [List.mem_erase_of_ne]
      · exact isMember
      · rintro rfl
        exact notIn inRegion
    · intro holds
      obtain ⟨region, remains, inRegion⟩ := holds
      refine ⟨⟨region, List.mem_of_mem_erase remains, inRegion⟩, ?_⟩
      intro inReleased
      exact disjoint_of_erase isAllocated.disjoint isLive remains index
        ⟨inReleased, inRegion⟩

/-- The invariant of the region allocator. -/
theorem AllocatorReaches.allocated
    (reached : AllocatorReaches bitmap bits memory live) :
    Allocated bitmap bits memory live := by
  induction reached with
  | start mapped clear =>
      refine ⟨mapped, by simp, by simp, .nil, ?_⟩
      intro index bound
      simp [clear index bound]
  | @find memory after live order result reached bound returned
      isAllocated =>
      have outcome :=
        (ensures_bitmapFindFreeRegion isAllocated.mapped
          (by omega)).of_returns returned
      rcases outcome with
        ⟨pos, rfl, aligned, inside, isFree, -, becomes⟩ | ⟨rfl, rfl, -⟩
      · rw [withRegion, if_pos (by omega), Int.toNat_natCast]
        exact isAllocated.allocate aligned inside isFree becomes
      · exact isAllocated
  | allocate reached aligned inside returned isAllocated =>
      have outcome :=
        (ensures_bitmapAllocateRegion isAllocated.mapped aligned
          inside).of_returns returned
      rcases outcome with ⟨rfl, isFree, becomes⟩ | ⟨rfl, -, rfl⟩
      · rw [if_pos rfl]
        exact isAllocated.allocate aligned inside isFree becomes
      · exact isAllocated
  | release reached isLive returned isAllocated =>
      have becomes :=
        (ensures_bitmapReleaseRegion isAllocated.mapped
          (isAllocated.aligned _ isLive)
          (isAllocated.inside _ isLive)).of_returns returned
      exact isAllocated.release isLive becomes

/-- A region that is allocated and released again leaves no trace. -/
theorem longs_eq_of_released
    {between final : CMemory}
    (mapped : memory.longs.Mapped bitmap (bitsToLongs bits))
    (isFree : Free memory bitmap pos order)
    (becomes :
      Becomes memory bitmap bits (allocated memory bitmap pos order)
        between)
    (cleared :
      Becomes between bitmap bits (released between bitmap pos order)
        final) :
    final.longs = memory.longs := by
  have same :
      ∀ index < bitsToLongs bits * 64,
        final.longs.bit bitmap index = memory.longs.bit bitmap index := by
    intro index bound
    rw [cleared.isValue index bound, released,
      becomes.isValue index bound, allocated]
    by_cases inRegion : InRegion pos order index
    · simp [inRegion, isFree index inRegion]
    · simp [inRegion]
  exact Region.eq_of_bits mapped cleared.mapped
    (becomes.outside.trans cleared.outside) same

/-- What holds in every state of the region allocator. -/
structure SafeAllocator
    (bitmap : Int)
    (bits : Nat)
    (memory : CMemory)
    (live : Live) : Prop where
  inside : ∀ region ∈ live, region.1 + 2 ^ region.2 ≤ bits
  disjoint : live.Pairwise Disjoint
  isSet :
    ∀ index < bitsToLongs bits * 64,
      memory.longs.bit bitmap index = true ↔
        ∃ region ∈ live, InRegion region.1 region.2 index
  findRestores :
    ∀ order, bits + 2 ^ order ≤ 2 ^ 31 - 1 →
      (bitmapFindFreeRegion bitmap bits order).Ensures memory
        fun result after =>
          (result = -enomem ∧ after = memory) ∨
            (0 ≤ result ∧
              (bitmapReleaseRegion bitmap result order).Ensures after
                fun _ final => final.longs = memory.longs)
  allocateRestores :
    ∀ pos order, 2 ^ order ∣ pos → pos + 2 ^ order ≤ bits →
      (bitmapAllocateRegion bitmap pos order).Ensures memory
        fun status after =>
          (status = -ebusy ∧ after = memory) ∨
            (status = 0 ∧
              (bitmapReleaseRegion bitmap pos order).Ensures after
                fun _ final => final.longs = memory.longs)
  releases :
    ∀ region ∈ live,
      (bitmapReleaseRegion bitmap region.1 region.2).Ensures memory
        fun _ _ => True

/--
In every run of the region allocator, the live regions are disjoint and inside
of the bitmap, exactly their bits are set, and a call that fails or is undone
leaves the bitmap unchanged.
-/
theorem AllocatorReaches.safe
    (reached : AllocatorReaches bitmap bits memory live) :
    SafeAllocator bitmap bits memory live := by
  have isAllocated := reached.allocated
  have mapped := isAllocated.mapped
  refine ⟨isAllocated.inside, isAllocated.disjoint, isAllocated.isSet, ?_,
    ?_, ?_⟩
  · intro order bound
    refine (ensures_bitmapFindFreeRegion mapped (by omega)).weaken ?_
    intro result after outcome
    rcases outcome with
      ⟨pos, rfl, aligned, inside, isFree, -, becomes⟩ | ⟨rfl, rfl, -⟩
    · refine .inr ⟨by omega, ?_⟩
      refine (ensures_bitmapReleaseRegion becomes.mapped aligned
        inside).weaken ?_
      intro _ final cleared
      exact longs_eq_of_released mapped isFree becomes cleared
    · exact .inl ⟨rfl, rfl⟩
  · intro pos order aligned inside
    refine (ensures_bitmapAllocateRegion mapped aligned inside).weaken ?_
    intro status after outcome
    rcases outcome with ⟨rfl, isFree, becomes⟩ | ⟨rfl, -, rfl⟩
    · refine .inr ⟨rfl, ?_⟩
      refine (ensures_bitmapReleaseRegion becomes.mapped aligned
        inside).weaken ?_
      intro _ final cleared
      exact longs_eq_of_released mapped isFree becomes cleared
    · exact .inl ⟨rfl, rfl⟩
  · intro region isLive
    exact (ensures_bitmapReleaseRegion mapped
      (isAllocated.aligned region isLive)
      (isAllocated.inside region isLive)).weaken fun _ _ _ => trivial

/-- A memory with an all-zero bitmap of 100 bits. -/
def hundredBits : CMemory where
  longs := .ofList [0, 0]
  chars := .ofList []

/-- A region of 64 bits, and one of four bits after it. -/
theorem AllocatorReaches.safe_of_sample :
    ∃ memory,
      AllocatorReaches 0 100 memory [(64, 2), (0, 6)] ∧
        SafeAllocator 0 100 memory [(64, 2), (0, 6)] := by
  have started : AllocatorReaches 0 100 hundredBits [] :=
    .start (Region.mapped_ofList (by decide)) (by decide +kernel)
  have executed :
      ((bitmapFindFreeRegion 0 100 6).exec 10 hundredBits).map
        (fun result =>
          (result.1,
            ((bitmapFindFreeRegion 0 100 2).exec 40 result.2).map
              Prod.fst)) =
        some (0, some 64) := by
    decide +kernel
  obtain ⟨⟨first, between⟩, firstReturned, isResult⟩ :=
    Option.map_eq_some_iff.mp executed
  simp only [Prod.mk.injEq] at isResult
  obtain ⟨rfl, isSecond⟩ := isResult
  obtain ⟨⟨second, memory⟩, secondReturned, rfl⟩ :=
    Option.map_eq_some_iff.mp isSecond
  have reached :=
    (started.find (by decide) ⟨10, firstReturned⟩).find (by decide)
      ⟨40, secondReturned⟩
  exact ⟨memory, reached, AllocatorReaches.safe reached⟩

end Runs

end LibKern.Bitmap
