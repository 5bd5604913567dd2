import LibKern.JhashSource
import Mathlib.Data.BitVec
import Mathlib.Tactic.Ring

namespace LibKern.Jhash

/-!
# The hash of a key

`jhash` reads a key in blocks of 12 bytes.  The hash only depends on the bytes
of the key: it is the function `hashOf`, in which a last block that is too short
is continued with zeros.
-/

open Program

/-- The bytes of a key are stored from this address on. -/
def KeyAt (memory : ByteMemory) (key : Word) (bytes : List Byte) : Prop :=
  ∀ index < bytes.length,
    memory.cell (key + BitVec.ofNat 64 index) = bytes[index]?

/-- A byte of a key; behind the key there are zeros. -/
def byteAt (bytes : List Byte) (index : Nat) : BitVec 32 :=
  (bytes.getD index 0).setWidth 32

/-- Four bytes of a key, the lowest first. -/
def wordAt (bytes : List Byte) (index : Nat) : BitVec 32 :=
  byteAt bytes index + (byteAt bytes (index + 1) <<< 8) +
    (byteAt bytes (index + 2) <<< 16) + (byteAt bytes (index + 3) <<< 24)

/-- Add the first block of a key to the variables. -/
def absorb (state : JhashState) (bytes : List Byte) : JhashState :=
  ⟨state.a + wordAt bytes 0, state.b + wordAt bytes 4,
    state.c + wordAt bytes 8⟩

/-- Hash this number of blocks and then the last block. -/
def hashBlocks (state : JhashState) : Nat → List Byte → JhashState
  | 0, bytes =>
      if bytes = [] then state else jhashFinal (absorb state bytes)
  | rounds + 1, bytes =>
      hashBlocks (jhashMix (absorb state bytes)) rounds (bytes.drop 12)

/-- The number of blocks before the last block. -/
def blocksBefore (length : Nat) : Nat :=
  (length - 1) / 12

/-- The variables at the end of the hash of a key. -/
def hashEndOf (bytes : List Byte) (initval : BitVec 32) : JhashState :=
  let start := jhashInitval + BitVec.ofNat 32 bytes.length + initval
  hashBlocks ⟨start, start, start⟩ (blocksBefore bytes.length) bytes

/-- The hash of a key. -/
def hashOf (bytes : List Byte) (initval : BitVec 32) : BitVec 32 :=
  (hashEndOf bytes initval).c

section Keys

variable {memory : ByteMemory}
variable {key : Word}
variable {bytes : List Byte}
variable {index label shift count : Nat}
variable {value : BitVec 32}
variable {vars : JhashVars}

/-- A key that is skipped in part. -/
theorem KeyAt.drop
    (keyAt : KeyAt memory key bytes)
    (count : Nat) :
    KeyAt memory (key + BitVec.ofNat 64 count) (bytes.drop count) := by
  intro index inside
  rw [List.length_drop] at inside
  have atIndex := keyAt (count + index) (by omega)
  rw [List.getElem?_drop, ← atIndex, BitVec.ofNat_add, BitVec.add_assoc]

/-- The beginning of a key. -/
theorem KeyAt.take
    (keyAt : KeyAt memory key bytes)
    (count : Nat) :
    KeyAt memory key (bytes.take count) := by
  intro index inside
  rw [List.length_take] at inside
  rw [keyAt index (by omega), List.getElem?_take_of_lt (by omega)]

theorem byteAt_of_le
    (behind : bytes.length ≤ index) :
    byteAt bytes index = 0#32 := by
  rw [byteAt, List.getD_eq_getElem?_getD,
    List.getElem?_eq_none behind, Option.getD_none, BitVec.ofNat_eq_ofNat,
    BitVec.setWidth_zero]

theorem KeyAt.ensures_loadByte
    {post : BitVec 32 → ByteMemory → Prop}
    (keyAt : KeyAt memory key bytes)
    (inside : index < bytes.length) :
    (loadByte key index).Ensures memory post ↔
      post (byteAt bytes index) memory := by
  rw [loadByte, ensures_reads, keyAt index inside,
    List.getElem?_eq_getElem inside]
  simp [byteAt, inside]

theorem KeyAt.ensures_loadWord
    {post : BitVec 32 → ByteMemory → Prop}
    (keyAt : KeyAt memory key bytes)
    (inside : index + 3 < bytes.length) :
    (loadWord key index).Ensures memory post ↔
      post (wordAt bytes index) memory := by
  rw [loadWord]
  simp only [ensures_bind, ensures_pure]
  rw [keyAt.ensures_loadByte (by omega), keyAt.ensures_loadByte (by omega),
    keyAt.ensures_loadByte (by omega), keyAt.ensures_loadByte inside,
    wordAt]

/-- A case that is not executed adds a zero. -/
theorem KeyAt.ensures_fallInto
    {post : BitVec 32 → ByteMemory → Prop}
    (keyAt : KeyAt memory vars.k bytes)
    (isLength : vars.length.toNat = bytes.length)
    (index shift : Nat) :
    (fallInto vars (index + 1) shift value).Ensures memory post ↔
      post (value + (byteAt bytes index <<< shift)) memory := by
  rw [fallInto, isLength]
  by_cases inside : index < bytes.length
  · rw [if_pos (by omega), ensures_bind, Nat.add_sub_cancel,
      keyAt.ensures_loadByte inside, ensures_pure]
  · rw [if_neg (by omega), ensures_pure, byteAt_of_le (by omega),
      BitVec.zero_shiftLeft, BitVec.add_zero]

/-- The switch adds the last block. -/
theorem KeyAt.ensures_jhashLast
    (keyAt : KeyAt memory vars.k bytes)
    (isLength : vars.length.toNat = bytes.length) :
    (jhashLast vars).Ensures memory fun state after =>
      after = memory ∧ state = hashBlocks vars.state 0 bytes := by
  have absorbed :
      absorb vars.state bytes =
        ⟨vars.state.a + (byteAt bytes 3 <<< 24) + (byteAt bytes 2 <<< 16) +
          (byteAt bytes 1 <<< 8) + (byteAt bytes 0 <<< 0),
        vars.state.b + (byteAt bytes 7 <<< 24) + (byteAt bytes 6 <<< 16) +
          (byteAt bytes 5 <<< 8) + (byteAt bytes 4 <<< 0),
        vars.state.c + (byteAt bytes 11 <<< 24) +
          (byteAt bytes 10 <<< 16) + (byteAt bytes 9 <<< 8) +
          (byteAt bytes 8 <<< 0)⟩ := by
    rw [absorb, wordAt, wordAt, wordAt]
    simp only [BitVec.shiftLeft_zero, JhashState.mk.injEq]
    refine ⟨?_, ?_, ?_⟩ <;> ring
  simp only [jhashLast, ensures_bind,
    keyAt.ensures_fallInto isLength, ← absorbed]
  rw [hashBlocks, isLength]
  by_cases isEmpty : bytes = []
  · subst isEmpty
    have nothing (index : Nat) : byteAt [] index = 0#32 :=
      byteAt_of_le (Nat.zero_le index)
    simp [absorb, wordAt, nothing]
  · have notZero : 1 ≤ bytes.length :=
      List.length_pos_iff.mpr isEmpty
    rw [if_pos notZero, if_neg isEmpty, ensures_pure]
    exact ⟨rfl, rfl⟩

/-- The loop hashes all blocks before the last block. -/
theorem KeyAt.ensures_blocks
    (keyAt : KeyAt memory vars.k bytes)
    (isLength : vars.length.toNat = bytes.length) :
    (loop jhashBlock vars >>= jhashLast).Ensures memory
      fun state after =>
        after = memory ∧
          state =
            hashBlocks vars.state (blocksBefore bytes.length) bytes := by
  generalize isRounds : blocksBefore bytes.length = rounds
  rw [blocksBefore] at isRounds
  rw [ensures_bind]
  induction rounds generalizing vars bytes with
  | zero =>
      rw [ensures_loop, jhashBlock, if_neg, ensures_pure]
      · exact keyAt.ensures_jhashLast isLength
      · rw [gt_iff_lt, BitVec.lt_def, isLength]
        change ¬12 < bytes.length
        omega
  | succ rounds inductionHypothesis =>
      have long : 12 < bytes.length := by omega
      have isLonger : vars.length > 12 := by
        rw [gt_iff_lt, BitVec.lt_def, isLength]
        exact long
      have isRest :
          (vars.length - 12).toNat = (bytes.drop 12).length := by
        rw [BitVec.toNat_sub_of_le (BitVec.le_of_lt isLonger), isLength,
          List.length_drop]
        rfl
      rw [ensures_loop, jhashBlock, if_pos isLonger]
      simp only [ensures_bind, ensures_pure]
      rw [keyAt.ensures_loadWord (by omega),
        keyAt.ensures_loadWord (by omega),
        keyAt.ensures_loadWord (by omega)]
      rw [hashBlocks]
      exact @inductionHypothesis (bytes.drop 12)
        ⟨jhashMix (absorb vars.state bytes), vars.length - 12, vars.k + 12⟩
        (keyAt.drop 12) isRest (by rw [List.length_drop]; omega)

/-- The variables when `jhash` returns. -/
theorem KeyAt.ensures_jhashEnd
    (keyAt : KeyAt memory key bytes)
    (short : bytes.length < 2 ^ 32)
    (initval : BitVec 32) :
    (jhashEnd key (BitVec.ofNat 32 bytes.length) initval).Ensures memory
      fun state after =>
        after = memory ∧ state = hashEndOf bytes initval := by
  have isLength : (BitVec.ofNat 32 bytes.length).toNat = bytes.length := by
    rw [BitVec.toNat_ofNat, Nat.mod_eq_of_lt short]
  rw [jhashEnd, hashEndOf]
  generalize jhashInitval + _ + initval = start
  exact @KeyAt.ensures_blocks memory bytes
    ⟨⟨start, start, start⟩, BitVec.ofNat 32 bytes.length, key⟩
    keyAt isLength

/-- The value that `jhash` returns is one of the variables. -/
theorem ensures_jhash_iff
    {length initval : BitVec 32}
    {post : BitVec 32 → ByteMemory → Prop} :
    (jhash key length initval).Ensures memory post ↔
      (jhashEnd key length initval).Ensures memory fun state after =>
        post state.c after := by
  rw [jhash, ensures_bind]
  simp only [ensures_pure]

/-- `jhash` returns the hash of the key. -/
theorem KeyAt.ensures_jhash
    (keyAt : KeyAt memory key bytes)
    (short : bytes.length < 2 ^ 32)
    (initval : BitVec 32) :
    (jhash key (BitVec.ofNat 32 bytes.length) initval).Ensures memory
      fun hash after => after = memory ∧ hash = hashOf bytes initval := by
  rw [ensures_jhash_iff]
  refine (keyAt.ensures_jhashEnd short initval).weaken ?_
  intro state after result
  obtain ⟨rfl, rfl⟩ := result
  exact ⟨rfl, rfl⟩

end Keys

end LibKern.Jhash
