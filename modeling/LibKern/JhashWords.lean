import LibKern.JhashKeys

namespace LibKern.Jhash

/-!
# Hashing words and hashing their bytes

`jhash2` takes its key three words at a time, `jhash` twelve bytes at a time.  On
the bytes of the words, the lowest byte first, both take the same blocks.
-/

open Program

/-- The bytes of a word, the lowest first. -/
def wordBytes (word : BitVec 32) : List Byte :=
  [word.setWidth 8, (word >>> 8).setWidth 8, (word >>> 16).setWidth 8,
    (word >>> 24).setWidth 8]

/-- The bytes of an array of words. -/
def bytesOf (words : List (BitVec 32)) : List Byte :=
  words.flatMap wordBytes

/-- The words of a key are stored from this address on. -/
def ItemsAt
    (memory : WordMemory)
    (k : Word)
    (words : List (BitVec 32)) : Prop :=
  ∀ index < words.length,
    memory.cell (k + BitVec.ofNat 64 (4 * index)) = words[index]?

section Bytes

variable {words : List (BitVec 32)}

@[simp] theorem length_bytesOf (words : List (BitVec 32)) :
    (bytesOf words).length = 4 * words.length := by
  induction words with
  | nil =>
      rfl
  | cons word rest inductionHypothesis =>
      rw [bytesOf, List.flatMap_cons, List.length_append, ← bytesOf,
        inductionHypothesis, List.length_cons, wordBytes]
      simp only [List.length_cons, List.length_nil]
      omega

/-- The bytes behind the first words. -/
theorem drop_bytesOf
    (words : List (BitVec 32))
    (count : Nat) :
    (bytesOf words).drop (4 * count) = bytesOf (words.drop count) := by
  induction count generalizing words with
  | zero =>
      simp
  | succ count inductionHypothesis =>
      cases words with
      | nil =>
          simp [bytesOf]
      | cons word rest =>
          rw [List.drop_succ_cons, ← inductionHypothesis]
          have four : 4 * (count + 1) = (wordBytes word).length + 4 * count := by
            simp only [wordBytes, List.length_cons, List.length_nil]
            omega
          rw [bytesOf, List.flatMap_cons, four, ← List.drop_drop,
            List.drop_left, ← bytesOf]

/-- A word is the sum of its bytes. -/
theorem sum_wordBytes (word : BitVec 32) :
    (word.setWidth 8).setWidth 32 +
          (((word >>> 8).setWidth 8).setWidth 32 <<< 8) +
        (((word >>> 16).setWidth 8).setWidth 32 <<< 16) +
      (((word >>> 24).setWidth 8).setWidth 32 <<< 24) =
    word := by
  apply BitVec.eq_of_toNat_eq
  have bound := word.isLt
  simp only [BitVec.toNat_add, BitVec.toNat_shiftLeft,
    BitVec.toNat_setWidth, BitVec.toNat_ushiftRight, Nat.shiftLeft_eq,
    Nat.shiftRight_eq_div_pow]
  omega

/-- A byte behind the first bytes. -/
theorem byteAt_drop
    (bytes : List Byte)
    (count index : Nat) :
    byteAt (bytes.drop count) index = byteAt bytes (count + index) := by
  rw [byteAt, byteAt, List.getD_eq_getElem?_getD,
    List.getD_eq_getElem?_getD, List.getElem?_drop]

/-- A word behind the first bytes. -/
theorem wordAt_drop
    (bytes : List Byte)
    (count index : Nat) :
    wordAt (bytes.drop count) index = wordAt bytes (count + index) := by
  simp only [wordAt, byteAt_drop, Nat.add_assoc]

/-- The words of a key are found in its bytes; behind it there are zeros. -/
theorem wordAt_bytesOf
    (words : List (BitVec 32))
    (index : Nat) :
    wordAt (bytesOf words) (4 * index) = words.getD index 0 := by
  have isHead :
      wordAt (bytesOf (words.drop index)) 0 =
        (words.drop index).getD 0 0 := by
    cases words.drop index with
    | nil =>
        rfl
    | cons word rest =>
        exact sum_wordBytes word
  rw [← drop_bytesOf, wordAt_drop, Nat.add_zero] at isHead
  rw [isHead, List.getD_eq_getElem?_getD, List.getD_eq_getElem?_getD,
    List.getElem?_drop, Nat.add_zero]

/-- The first block of the bytes holds the first three words. -/
theorem absorb_bytesOf
    (state : JhashState)
    (words : List (BitVec 32)) :
    absorb state (bytesOf words) =
      ⟨state.a + words.getD 0 0, state.b + words.getD 1 0,
        state.c + words.getD 2 0⟩ := by
  rw [absorb, ← wordAt_bytesOf words 0, ← wordAt_bytesOf words 1,
    ← wordAt_bytesOf words 2]

end Bytes

section Items

variable {memory : WordMemory}
variable {k : Word}
variable {words : List (BitVec 32)}
variable {vars : JhashVars}

/-- A key that is skipped in part. -/
theorem ItemsAt.drop
    (itemsAt : ItemsAt memory k words)
    (count : Nat) :
    ItemsAt memory (k + BitVec.ofNat 64 (4 * count))
      (words.drop count) := by
  intro index inside
  rw [List.length_drop] at inside
  have atIndex := itemsAt (count + index) (by omega)
  rw [List.getElem?_drop, ← atIndex, Nat.mul_add, BitVec.ofNat_add,
    BitVec.add_assoc]

theorem ItemsAt.ensures_loadItem
    {index : Nat}
    {post : BitVec 32 → WordMemory → Prop}
    (itemsAt : ItemsAt memory k words)
    (inside : index < words.length) :
    (loadItem k index).Ensures memory post ↔
      post (words.getD index 0) memory := by
  rw [loadItem, ensures_reads, itemsAt index inside,
    List.getElem?_eq_getElem inside]
  simp [inside]

/-- A case that is not executed adds a zero. -/
theorem ItemsAt.ensures_fallIntoItem
    {value : BitVec 32}
    {post : BitVec 32 → WordMemory → Prop}
    (itemsAt : ItemsAt memory vars.k words)
    (isLength : vars.length.toNat = words.length)
    (index : Nat) :
    (fallIntoItem vars (index + 1) value).Ensures memory post ↔
      post (value + words.getD index 0) memory := by
  rw [fallIntoItem, isLength]
  by_cases inside : index < words.length
  · rw [if_pos (by omega), ensures_bind, Nat.add_sub_cancel,
      itemsAt.ensures_loadItem inside, ensures_pure]
  · rw [if_neg (by omega), ensures_pure, List.getD_eq_getElem?_getD,
      List.getElem?_eq_none (by omega), Option.getD_none,
      BitVec.ofNat_eq_ofNat, BitVec.add_zero]

/-- The switch adds the last block. -/
theorem ItemsAt.ensures_jhash2Last
    (itemsAt : ItemsAt memory vars.k words)
    (isLength : vars.length.toNat = words.length) :
    (jhash2Last vars).Ensures memory fun state after =>
      after = memory ∧
        state = hashBlocks vars.state 0 (bytesOf words) := by
  simp only [jhash2Last, ensures_bind,
    itemsAt.ensures_fallIntoItem isLength]
  rw [hashBlocks, isLength, absorb_bytesOf]
  by_cases isEmpty : words = []
  · subst isEmpty
    rw [if_neg (by simp), if_pos (by rfl), ensures_pure]
    exact ⟨rfl, by simp⟩
  · have notZero : 1 ≤ words.length :=
      List.length_pos_iff.mpr isEmpty
    have someByte : bytesOf words ≠ [] := by
      rw [← List.length_pos_iff, length_bytesOf]
      omega
    rw [if_pos notZero, if_neg someByte, ensures_pure]
    exact ⟨rfl, rfl⟩

/-- The loop of `jhash2` hashes all blocks before the last block. -/
theorem ItemsAt.ensures_jhash2Blocks
    (itemsAt : ItemsAt memory vars.k words)
    (isLength : vars.length.toNat = words.length) :
    (loop jhash2Block vars >>= jhash2Last).Ensures memory
      fun state after =>
        after = memory ∧
          state =
            hashBlocks vars.state (blocksBefore (bytesOf words).length)
              (bytesOf words) := by
  rw [length_bytesOf]
  generalize isRounds : blocksBefore (4 * words.length) = rounds
  rw [blocksBefore] at isRounds
  rw [ensures_bind]
  induction rounds generalizing vars words with
  | zero =>
      rw [ensures_loop, jhash2Block, if_neg, ensures_pure]
      · exact itemsAt.ensures_jhash2Last isLength
      · rw [gt_iff_lt, BitVec.lt_def, isLength]
        change ¬3 < words.length
        omega
  | succ rounds inductionHypothesis =>
      have long : 3 < words.length := by omega
      have isLonger : vars.length > 3 := by
        rw [gt_iff_lt, BitVec.lt_def, isLength]
        exact long
      have isRest :
          (vars.length - 3).toNat = (words.drop 3).length := by
        rw [BitVec.toNat_sub_of_le (BitVec.le_of_lt isLonger), isLength,
          List.length_drop]
        rfl
      rw [ensures_loop, jhash2Block, if_pos isLonger]
      simp only [ensures_bind, ensures_pure]
      rw [itemsAt.ensures_loadItem (by omega),
        itemsAt.ensures_loadItem (by omega),
        itemsAt.ensures_loadItem (by omega)]
      rw [hashBlocks, drop_bytesOf words 3, absorb_bytesOf]
      exact @inductionHypothesis (words.drop 3)
        ⟨jhashMix ⟨vars.state.a + words.getD 0 0,
          vars.state.b + words.getD 1 0, vars.state.c + words.getD 2 0⟩,
          vars.length - 3, vars.k + 12⟩
        (itemsAt.drop 3) isRest (by rw [List.length_drop]; omega)

/-- The variables of `jhash2` at its end, as the bytes of the words say. -/
theorem ItemsAt.ensures_jhash2End
    (itemsAt : ItemsAt memory k words)
    (short : 4 * words.length < 2 ^ 32)
    (initval : BitVec 32) :
    (jhash2End k (BitVec.ofNat 32 words.length) initval).Ensures memory
      fun state after =>
        after = memory ∧ state = hashEndOf (bytesOf words) initval := by
  have isLength :
      (BitVec.ofNat 32 words.length).toNat = words.length := by
    rw [BitVec.toNat_ofNat, Nat.mod_eq_of_lt (by omega)]
  have inBytes :
      BitVec.ofNat 32 words.length <<< 2 =
        BitVec.ofNat 32 (bytesOf words).length := by
    apply BitVec.eq_of_toNat_eq
    rw [BitVec.toNat_shiftLeft, isLength, BitVec.toNat_ofNat,
      length_bytesOf, Nat.shiftLeft_eq]
    omega
  rw [jhash2End, hashEndOf, inBytes]
  exact @ItemsAt.ensures_jhash2Blocks memory words ⟨⟨_, _, _⟩, _, k⟩
    itemsAt isLength

/-- `jhash2` returns the hash of the bytes of its words. -/
theorem ItemsAt.ensures_jhash2
    (itemsAt : ItemsAt memory k words)
    (short : 4 * words.length < 2 ^ 32)
    (initval : BitVec 32) :
    (jhash2 k (BitVec.ofNat 32 words.length) initval).Ensures memory
      fun hash after =>
        after = memory ∧ hash = hashOf (bytesOf words) initval := by
  rw [jhash2, ensures_bind]
  refine (itemsAt.ensures_jhash2End short initval).weaken ?_
  intro state after result
  obtain ⟨rfl, rfl⟩ := result
  exact ensures_pure.mpr ⟨rfl, rfl⟩

/--
Hashing an array of words and hashing its bytes, the lowest byte of each word
first, returns the same value.
-/
theorem jhash_eq_jhash2
    {bytes : ByteMemory}
    {key : Word}
    (short : 4 * words.length < 2 ^ 32)
    (keyAt : KeyAt bytes key (bytesOf words))
    (itemsAt : ItemsAt memory k words)
    (initval : BitVec 32) :
    ∃ hash,
      (jhash key (BitVec.ofNat 32 (4 * words.length)) initval).Returns
          bytes hash bytes ∧
        (jhash2 k (BitVec.ofNat 32 words.length) initval).Returns
          memory hash memory := by
  have isShort : (bytesOf words).length < 2 ^ 32 := by
    rw [length_bytesOf]
    exact short
  have byBytes := keyAt.ensures_jhash isShort initval
  rw [length_bytesOf] at byBytes
  obtain ⟨hash, afterBytes, bytesReturned, rfl, rfl⟩ := byBytes
  obtain ⟨other, afterWords, wordsReturned, rfl, rfl⟩ :=
    itemsAt.ensures_jhash2 short initval
  exact ⟨_, bytesReturned, wordsReturned⟩

end Items

section Sample

/-- A memory with a list of values of the same size from an address on. -/
def valuesAt {γ : Type} (base size : Nat) (values : List γ) :
    Memory Word γ where
  cell address :=
    if 0 < address.toNat ∧ base ≤ address.toNat ∧
        (address.toNat - base) % size = 0 then
      values[(address.toNat - base) / size]?
    else
      none
  null_unmapped := rfl

/-- The value with an index is found where it is expected. -/
theorem valuesAt_cell
    {γ : Type}
    {base size : Nat}
    (values : List γ)
    (index : Nat)
    (nonzero : 0 < base)
    (positive : 0 < size)
    (inside : base + size * index < 2 ^ 64) :
    (valuesAt base size values).cell
        (BitVec.ofNat 64 base + BitVec.ofNat 64 (size * index)) =
      values[index]? := by
  have address :
      (BitVec.ofNat 64 base + BitVec.ofNat 64 (size * index)).toNat =
        base + size * index := by
    rw [BitVec.toNat_add, BitVec.toNat_ofNat, BitVec.toNat_ofNat]
    omega
  simp only [valuesAt]
  rw [address, Nat.add_sub_cancel_left, if_pos,
    Nat.mul_div_cancel_left index positive]
  exact ⟨by omega, by omega, Nat.mul_mod_right size index⟩

/-- The bytes of a key are found where they are expected. -/
theorem keyAt_valuesAt
    {base : Nat}
    (bytes : List Byte)
    (nonzero : 0 < base)
    (inside : base + bytes.length < 2 ^ 64) :
    KeyAt (valuesAt base 1 bytes) (BitVec.ofNat 64 base) bytes := by
  intro index below
  have atIndex :=
    valuesAt_cell bytes index nonzero Nat.one_pos (by omega)
  rwa [Nat.one_mul] at atIndex

/-- Four words, so that one block is mixed before the last one. -/
def fourWords : List (BitVec 32) :=
  [1, 0x01020304, 3, 0xfffefdfc]

/-- The two ways to hash `fourWords` agree. -/
theorem jhash_eq_jhash2_of_sample :
    ∃ hash,
      (jhash 16 (BitVec.ofNat 32 (4 * fourWords.length)) 7).Returns
          (valuesAt 16 1 (bytesOf fourWords)) hash
          (valuesAt 16 1 (bytesOf fourWords)) ∧
        (jhash2 16 (BitVec.ofNat 32 fourWords.length) 7).Returns
          (valuesAt 16 4 fourWords) hash (valuesAt 16 4 fourWords) := by
  have four : fourWords.length = 4 := rfl
  apply jhash_eq_jhash2 (by decide)
  · exact keyAt_valuesAt (bytesOf fourWords) (by decide)
      (by rw [length_bytesOf, four]; decide)
  · intro index inside
    rw [four] at inside
    exact valuesAt_cell fourWords index (by decide) (by decide)
      (by omega)

end Sample

end LibKern.Jhash
