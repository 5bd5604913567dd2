import LibKern.HtableRuns
import LibKern.Masks

namespace LibKern.Htables

/-!
# The number of buckets

The bucket of a hash is found with a mask, while the number of buckets is taken
over from the caller as it is.  All buckets are used exactly if this number is
a power of two; the default of `htable_init` is one, the default of
`htable_init_n` is not.
-/

open Program Hlists Masks

/-- The hashes lead to all buckets of a table with this size, and no others. -/
structure UsesBuckets (size : Word) : Prop where
  below :
    ∀ hash, (htableWhichBucket size hash).toNat < size.toNat
  every :
    ∀ index < size.toNat,
      ∃ hash, (htableWhichBucket size hash).toNat = index

section Sizes

variable {memory : HtableMemory}
variable {table size bucks bitvect : Word}

/-- The mask leads to all buckets exactly if their number is a power of two. -/
theorem usesBuckets_iff
    (nonempty : 0 < size.toNat)
    (bounded : size.toNat < 2 ^ 31) :
    UsesBuckets size ↔ size.toNat.isPowerOfTwo := by
  constructor
  · intro uses
    have submasks :
        ∀ index ≤ size.toNat - 1, index &&& (size.toNat - 1) = index := by
      intro index atMost
      obtain ⟨hash, isIndex⟩ := uses.every index (by omega)
      rw [toNat_htableWhichBucket nonempty bounded] at isIndex
      rw [← isIndex, Nat.and_assoc, Nat.and_self]
    have isPower := isPowerOfTwo_of_submasks submasks
    rw [Nat.sub_add_cancel nonempty] at isPower
    exact isPower
  · intro isPower
    refine ⟨fun hash => htableWhichBucket_lt nonempty bounded, ?_⟩
    intro index below
    refine ⟨BitVec.ofNat 32 index, ?_⟩
    rw [toNat_htableWhichBucket nonempty bounded, BitVec.toNat_ofNat,
      Nat.mod_eq_of_lt (by omega)]
    obtain ⟨k, isPower⟩ := isPower
    rw [isPower] at below ⊢
    exact and_mask_eq_self below

/-- A table that is built has the number of buckets that was asked for. -/
theorem Provided.ensures_usesBuckets_iff
    (provided : Provided memory table bucks size bitvect)
    (nonempty : 0 < size.toNat)
    (bounded : size.toNat < 2 ^ 31) :
    (htableInitSize table size bucks bitvect).Ensures memory
      fun result after =>
        result = 0 ∧
          ∃ fields, after.tables.cell table = some fields ∧
            (UsesBuckets fields.size ↔ size.toNat.isPowerOfTwo) := by
  refine (provided.ensures_htableInitSize nonempty bounded).weaken ?_
  intro result after built
  obtain ⟨isZero, fields, rfl, holds⟩ := built
  exact ⟨isZero, fields, holds.atTable, usesBuckets_iff nonempty bounded⟩

/-- The default of `htable_init_n` is not a power of two. -/
theorem isPowerOfTwo_sizeFor_iff
    (n : Word) :
    (sizeFor n).toNat.isPowerOfTwo ↔ n.toNat.isPowerOfTwo := by
  by_cases positive : n > 0
  · rw [sizeFor, if_pos positive]
  · have isZero : n.toNat = 0 :=
      Nat.eq_zero_of_not_pos positive
    rw [sizeFor, if_neg positive, isZero]
    constructor
    · intro isPower
      obtain ⟨k, isPower⟩ := isPower
      have isTen : hashBucketThresh.toNat = 10 := rfl
      have between : 3 < k ∧ k < 4 := by
        rw [isTen] at isPower
        constructor
        · apply (Nat.pow_lt_pow_iff_right (by decide : 1 < 2)).mp
          omega
        · apply (Nat.pow_lt_pow_iff_right (by decide : 1 < 2)).mp
          omega
      omega
    · intro isPower
      exact absurd (Nat.pos_of_isPowerOfTwo isPower) (by decide)

/--
`htable_init` builds a table all of whose buckets are used.  `htable_init_n`
does so exactly if the size that it is given is a power of two.
-/
theorem buckets_used_iff_power
    (memory : HtableMemory)
    (table bucks bitvect : Word) :
    (Provided memory table bucks hashNumBuckets bitvect →
      (htableInit table bucks bitvect).Ensures memory
        fun result after =>
          result = 0 ∧
            ∃ fields, after.tables.cell table = some fields ∧
              UsesBuckets fields.size) ∧
      ∀ n : Word,
        n.toNat ≤ 2 ^ 31 - 1 →
        Provided memory table bucks (sizeFor n) bitvect →
          (htableInitN table n bucks bitvect).Ensures memory
            fun result after =>
              result = 0 ∧
                ∃ fields, after.tables.cell table = some fields ∧
                  (UsesBuckets fields.size ↔ n.toNat.isPowerOfTwo) := by
  constructor
  · intro provided
    refine (provided.ensures_usesBuckets_iff (by decide)
      (by decide)).weaken ?_
    intro result after built
    obtain ⟨isZero, fields, atTable, uses⟩ := built
    exact ⟨isZero, fields, atTable, uses.mpr ⟨4, rfl⟩⟩
  · intro n bounded provided
    obtain ⟨nonempty, inRange⟩ := sizeFor_bounds bounded
    refine (provided.ensures_usesBuckets_iff nonempty inRange).weaken ?_
    intro result after built
    obtain ⟨isZero, fields, atTable, uses⟩ := built
    rw [isPowerOfTwo_sizeFor_iff] at uses
    exact ⟨isZero, fields, atTable, uses⟩

/-- The memory of a table with this many buckets. -/
def withBuckets (count : Nat) : HtableMemory where
  lists :=
    ⟨.ofList ((List.range count).map fun index =>
      (256 + 8 * BitVec.ofNat 64 index, 0)),
      .ofList []⟩
  entries := .ofList []
  tables := .ofList [(16, ⟨0, 0, 0, 0⟩)]
  bits :=
    .ofList ((List.range 32).map fun index =>
      (64 + BitVec.ofNat 64 index, 0))
  keys := .ofList []

/-- The four buckets of a table are used, and so are sixteen buckets. -/
theorem buckets_used_iff_power_of_sample :
    (htableInitN 16 4 256 64).Ensures (withBuckets 4) (fun result after =>
      result = 0 ∧
        ∃ fields, after.tables.cell 16 = some fields ∧
          UsesBuckets fields.size) ∧
      (htableInit 16 256 64).Ensures (withBuckets 16) fun result after =>
        result = 0 ∧
          ∃ fields, after.tables.cell 16 = some fields ∧
            UsesBuckets fields.size := by
  have four : Provided (withBuckets 4) 16 256 (sizeFor 4) 64 :=
    provided_of_isSome (by decide) (by decide) (by decide)
  have sixteen : Provided (withBuckets 16) 16 256 hashNumBuckets 64 :=
    provided_of_isSome (by decide) (by decide) (by decide)
  constructor
  · refine ((buckets_used_iff_power (withBuckets 4) 16 256 64).2 4
      (by decide) four).weaken ?_
    intro result after built
    obtain ⟨isZero, fields, atTable, uses⟩ := built
    exact ⟨isZero, fields, atTable, uses.mpr ⟨2, rfl⟩⟩
  · exact (buckets_used_iff_power (withBuckets 16) 16 256 64).1 sixteen

/-- The memory of a table with ten buckets. -/
def tenBuckets : HtableMemory where
  lists := ⟨.ofList ((List.range 10).map fun index => (8 + 8 * index, 0)),
    .ofList []⟩
  entries := .ofList []
  tables := .ofList [(16, ⟨0, 0, 0, 0⟩)]
  bits := .ofList ((List.range 32).map fun index => (64 + index, 0))
  keys := .ofList []

/-- Some of the ten buckets that `htable_init_n` allocates are never used. -/
theorem default_buckets_unused :
    (htableInitN 16 0 8 64).Ensures tenBuckets fun result after =>
      result = 0 ∧
        ∃ fields, after.tables.cell 16 = some fields ∧
          ¬UsesBuckets fields.size := by
  have provided : Provided tenBuckets 16 8 (sizeFor 0) 64 :=
    provided_of_isSome (by decide) (by decide) (by decide)
  refine (provided.ensures_usesBuckets_iff (by decide)
    (by decide)).weaken ?_
  intro result after built
  obtain ⟨isZero, fields, atTable, uses⟩ := built
  refine ⟨isZero, fields, atTable, ?_⟩
  rw [uses, isPowerOfTwo_sizeFor_iff]
  intro isPower
  exact absurd (Nat.pos_of_isPowerOfTwo isPower) (by decide)

end Sizes

end LibKern.Htables
