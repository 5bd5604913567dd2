import LibKern.HtableBuckets
import LibKern.JhashKeys
import LibKern.KeyedStacks

namespace LibKern.Htables

/-!
# Keys and the bit vector

The bytes of a key decide its hash, its bucket and its bit of the bit vector.  A
bit that was set once stays set.
-/

open Program Hlists Jhash

/-- A pointer and a length that give these bytes. -/
structure KeyOf
    (keys : ByteMemory)
    (key len : Word)
    (bytes : List Byte) : Prop where
  isLength : len.toNat = bytes.length
  keyAt : KeyAt keys key bytes

/-- The hash of a key; `jhash` takes its length as a `uint32_t`. -/
def keyHash (bytes : List Byte) : BitVec 32 :=
  hashOf (bytes.take (bytes.length % 2 ^ 32)) 0

/-- The bucket of a key. -/
def bucketOf (size : Word) (bytes : List Byte) : Nat :=
  (htableWhichBucket size (keyHash bytes)).toNat

section Keys

variable {keys : ByteMemory}
variable {key len otherKey size : Word}
variable {bytes otherBytes : List Byte}
variable {hash : BitVec 32}

/-- `jhash` returns the hash of the key. -/
theorem KeyOf.ensures_jhash
    (keyOf : KeyOf keys key len bytes) :
    (jhash key (len.setWidth 32) 0).Ensures keys fun hash after =>
      after = keys ∧ hash = keyHash bytes := by
  have isTaken :
      (bytes.take (bytes.length % 2 ^ 32)).length =
        bytes.length % 2 ^ 32 := by
    rw [List.length_take]
    omega
  have isLength :
      len.setWidth 32 =
        BitVec.ofNat 32 (bytes.take (bytes.length % 2 ^ 32)).length := by
    refine BitVec.eq_of_toNat_eq ?_
    rw [BitVec.toNat_setWidth, BitVec.toNat_ofNat, isTaken,
      keyOf.isLength, Nat.mod_mod]
  rw [isLength]
  refine (keyOf.keyAt.take _).ensures_jhash ?_ 0
  rw [isTaken]
  omega

theorem readBytes_of_keyAt
    (keyAt : KeyAt keys key bytes) :
    readBytes keys key bytes.length = some bytes := by
  induction bytes generalizing key with
  | nil =>
      rfl
  | cons byte bytes inductionHypothesis =>
      have isByte : keys.cell key = some byte := by
        simpa using keyAt 0 (by simp)
      have isRest : readBytes keys (key + 1) bytes.length = some bytes :=
        inductionHypothesis (keyAt.drop 1)
      rw [List.length_cons, readBytes, isByte, isRest]
      rfl

/-- `memcmp` compares the bytes of the keys. -/
theorem KeyOf.ensures_memcmpEqual
    (keyOf : KeyOf keys key len bytes)
    (otherKeyOf : KeyOf keys otherKey len otherBytes) :
    (memcmpEqual key otherKey len).Ensures keys fun same after =>
      after = keys ∧ same = decide (bytes = otherBytes) := by
  have isLeft : readBytes keys key len.toNat = some bytes := by
    rw [keyOf.isLength, readBytes_of_keyAt keyOf.keyAt]
  have isRight : readBytes keys otherKey len.toNat = some otherBytes := by
    rw [otherKeyOf.isLength, readBytes_of_keyAt otherKeyOf.keyAt]
  rw [memcmpEqual, ensures_reads, isLeft, isRight]
  exact ⟨_, rfl, rfl, rfl⟩

/-- The bucket of a hash is the hash under the mask. -/
theorem toNat_htableWhichBucket
    (nonempty : 0 < size.toNat)
    (bounded : size.toNat < 2 ^ 31)
    (hash : BitVec 32) :
    (htableWhichBucket size hash).toNat =
      hash.toNat &&& (size.toNat - 1) := by
  have isOne : (1 : Word) ≤ size := by
    rw [BitVec.le_def]
    exact nonempty
  have isMask : (size - 1).toNat = size.toNat - 1 :=
    BitVec.toNat_sub_of_le isOne
  have isHash : (hash.setWidth 64).toNat = hash.toNat :=
    BitVec.toNat_setWidth_of_le (by decide)
  have masked : hash.toNat &&& (size.toNat - 1) ≤ size.toNat - 1 :=
    Nat.and_le_right
  rw [htableWhichBucket, BitVec.toNat_setWidth, BitVec.toNat_and, isMask,
    isHash, Nat.mod_eq_of_lt (by omega)]

/-- The bucket of a hash is one of the buckets, whatever the size is. -/
theorem htableWhichBucket_lt
    (nonempty : 0 < size.toNat)
    (bounded : size.toNat < 2 ^ 31) :
    (htableWhichBucket size hash).toNat < size.toNat := by
  have masked : hash.toNat &&& (size.toNat - 1) ≤ size.toNat - 1 :=
    Nat.and_le_right
  rw [toNat_htableWhichBucket nonempty bounded]
  omega

end Keys

/-- The bit of this hash is set. -/
def Passes
    (bits : Memory Word Byte)
    (bitvect : Word)
    (hash : BitVec 32) : Prop :=
  ∃ byte, bits.cell (bloomByte bitvect (bloomIndex hash)) = some byte ∧
    byte.setWidth 32 &&& bloomMask (bloomIndex hash) ≠ 0

/-- All bytes of a bit vector can be accessed. -/
def BloomMapped (bits : Memory Word Byte) (bitvect : Word) : Prop :=
  ∀ index < bloomBytes,
    ∃ byte, bits.cell (bitvect + BitVec.ofNat 64 index) = some byte

section Bloom

variable {memory : HtableMemory}
variable {bits : Memory Word Byte}
variable {bitvect address : Word}
variable {hash other idx : BitVec 32}
variable {byte value : Byte}

/-- The byte of a hash is in the bit vector. -/
theorem bloomIndex_div_lt
    (hash : BitVec 32) :
    (bloomIndex hash).toNat / bitsPerByte < bloomBytes := by
  have masked : hash.toNat &&& 255 ≤ 255 := Nat.and_le_right
  have isIndex : (bloomIndex hash).toNat = hash.toNat &&& 255 := by
    rw [bloomIndex, BitVec.toNat_and]
    rfl
  rw [isIndex, bloomBytes, bloomBitLength, bitsPerByte]
  omega

theorem BloomMapped.exists_byte
    (mapped : BloomMapped bits bitvect)
    (hash : BitVec 32) :
    ∃ byte,
      bits.cell (bloomByte bitvect (bloomIndex hash)) = some byte :=
  mapped _ (bloomIndex_div_lt hash)

theorem and_bloomMask_ne_zero_iff :
    byte.setWidth 32 &&& bloomMask idx ≠ 0 ↔
      byte.getLsbD (idx.toNat % 8) = true := by
  have small : idx.toNat % 8 < 8 := Nat.mod_lt _ (by decide)
  have notZero : BitVec.twoPow 32 (idx.toNat % 8) ≠ 0#32 := by
    intro isZero
    have isNumber := congrArg BitVec.toNat isZero
    rw [BitVec.toNat_twoPow_of_lt (by omega)] at isNumber
    simp at isNumber
  rw [bloomMask, bitsPerByte, ← BitVec.twoPow_eq,
    BitVec.and_twoPow, BitVec.getLsbD_setWidth]
  by_cases isSet : byte.getLsbD (idx.toNat % 8) = true
  · simp [isSet, notZero, show idx.toNat % 8 < 32 by omega]
  · simp [isSet]

/-- The bits of a byte in which one bit is set. -/
theorem getLsbD_setBit
    {index : Nat}
    (small : index < 8) :
    (((byte.setWidth 32 ||| bloomMask idx).setWidth 8).getLsbD index =
        true) ↔
      byte.getLsbD index = true ∨ index = idx.toNat % 8 := by
  have inside : index < 32 := by omega
  rw [bloomMask, bitsPerByte, ← BitVec.twoPow_eq]
  simp [small, inside]

theorem BloomMapped.modify
    (mapped : BloomMapped bits bitvect) :
    BloomMapped (bits.modify address fun _ => value) bitvect := by
  intro index inside
  obtain ⟨byte, isByte⟩ := mapped index inside
  by_cases same : bitvect + BitVec.ofNat 64 index = address
  · rw [← same, Memory.modify_cell_same, isByte]
    exact ⟨value, rfl⟩
  · rw [Memory.modify_cell_of_ne _ _ same]
    exact ⟨byte, isByte⟩

/-- `bloom_test` tests the bit of a hash. -/
theorem BloomMapped.ensures_bloomTest
    (mapped : BloomMapped memory.bits bitvect)
    (hash : BitVec 32) :
    (bloomTest bitvect hash).Ensures memory fun present after =>
      after = memory ∧
        (present = true ↔ Passes memory.bits bitvect hash) := by
  obtain ⟨byte, isByte⟩ := mapped.exists_byte hash
  rw [bloomTest, ensures_bind, loadBits, ensures_reads]
  refine ⟨byte, isByte, ?_⟩
  rw [ensures_pure, decide_eq_true_iff, Passes, isByte]
  simp

/-- `bloom_set` sets the bit of a hash and clears no bit. -/
theorem BloomMapped.ensures_bloomSet
    (mapped : BloomMapped memory.bits bitvect)
    (hash : BitVec 32) :
    (bloomSet bitvect hash).Ensures memory fun _ after =>
      after = { memory with bits := after.bits } ∧
        BloomMapped after.bits bitvect ∧
        Passes after.bits bitvect hash ∧
        ∀ other, Passes memory.bits bitvect other →
          Passes after.bits bitvect other := by
  obtain ⟨byte, isByte⟩ := mapped.exists_byte hash
  rw [bloomSet, ensures_bind, loadBits, ensures_reads]
  refine ⟨byte, isByte, ?_⟩
  rw [storeBits, ensures_updates, isByte]
  refine ⟨_, rfl, rfl, mapped.modify, ?_, ?_⟩
  · rw [Passes, Memory.modify_cell_same, isByte]
    refine ⟨_, rfl, ?_⟩
    rw [and_bloomMask_ne_zero_iff,
      getLsbD_setBit (Nat.mod_lt _ (by decide))]
    exact .inr rfl
  · intro other passes
    obtain ⟨content, isContent, isSet⟩ := passes
    rw [and_bloomMask_ne_zero_iff] at isSet
    by_cases same :
        bloomByte bitvect (bloomIndex other) =
          bloomByte bitvect (bloomIndex hash)
    · obtain rfl : byte = content := by
        rw [same, isByte] at isContent
        exact Option.some.inj isContent
      rw [Passes, same, Memory.modify_cell_same, isByte]
      refine ⟨_, rfl, ?_⟩
      rw [and_bloomMask_ne_zero_iff,
        getLsbD_setBit (Nat.mod_lt _ (by decide))]
      exact .inl isSet
    · rw [Passes, Memory.modify_cell_of_ne _ _ same]
      exact ⟨content, isContent, and_bloomMask_ne_zero_iff.mpr isSet⟩

end Bloom

end LibKern.Htables
