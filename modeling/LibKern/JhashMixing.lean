import LibKern.JhashWords
import Mathlib.Data.LawfulXor.Basic
import Mathlib.Logic.Function.Basic

namespace LibKern.Jhash

/-!
# Mixing without loss

Each line of `__jhash_mix` and of `__jhash_final` can be undone, so both are
bijections of the three variables.  Hence a difference inside of one block of a
key is still there when `jhash` returns.
-/

open Program

section Lines

/--
One line of `__jhash_mix`.  The variables are rotated, so that the next line has
the same form.
-/
def stir (shift : Nat) (state : JhashState) : JhashState :=
  ⟨state.b, state.c + state.b,
    (state.a - state.c) ^^^ rol32 state.c shift⟩

/-- Undo a line of `__jhash_mix`. -/
def unstir (shift : Nat) (state : JhashState) : JhashState :=
  let c := state.b - state.a
  ⟨(state.c ^^^ rol32 c shift) + c, state.a, c⟩

/--
One line of `__jhash_final`.  The variables are rotated, so that the next line
has the same form.
-/
def settle (shift : Nat) (state : JhashState) : JhashState :=
  ⟨state.b, (state.c ^^^ state.b) - rol32 state.b shift, state.a⟩

/-- Undo a line of `__jhash_final`. -/
def unsettle (shift : Nat) (state : JhashState) : JhashState :=
  ⟨state.c, state.a, (state.b + rol32 state.a shift) ^^^ state.a⟩

/-- Rotate the variables back. -/
def unrotate (state : JhashState) : JhashState :=
  ⟨state.c, state.a, state.b⟩

theorem bijective_stir (shift : Nat) : Function.Bijective (stir shift) := by
  rw [Function.bijective_iff_has_inverse]
  refine ⟨unstir shift, ?_, ?_⟩
  · intro state
    simp [stir, unstir]
  · intro state
    simp [stir, unstir]

theorem bijective_settle (shift : Nat) :
    Function.Bijective (settle shift) := by
  rw [Function.bijective_iff_has_inverse]
  refine ⟨unsettle shift, ?_, ?_⟩
  · intro state
    simp [settle, unsettle]
  · intro state
    simp [settle, unsettle]

theorem bijective_unrotate : Function.Bijective unrotate := by
  rw [Function.bijective_iff_has_inverse]
  refine ⟨fun state => ⟨state.b, state.c, state.a⟩, ?_, ?_⟩
  · intro state
    rfl
  · intro state
    rfl

/-- The six lines of `__jhash_mix`. -/
theorem jhashMix_eq :
    jhashMix =
      stir 4 ∘ stir 19 ∘ stir 16 ∘ stir 8 ∘ stir 6 ∘ stir 4 :=
  rfl

/-- The seven lines of `__jhash_final`. -/
theorem jhashFinal_eq :
    jhashFinal =
      unrotate ∘ settle 24 ∘ settle 14 ∘ settle 4 ∘ settle 16 ∘
        settle 25 ∘ settle 11 ∘ settle 14 :=
  rfl

/-- `__jhash_mix` is a bijection. -/
theorem bijective_jhashMix : Function.Bijective jhashMix := by
  rw [jhashMix_eq]
  exact (bijective_stir 4).comp <| (bijective_stir 19).comp <|
    (bijective_stir 16).comp <| (bijective_stir 8).comp <|
    (bijective_stir 6).comp (bijective_stir 4)

/-- `__jhash_final` is a bijection. -/
theorem bijective_jhashFinal : Function.Bijective jhashFinal := by
  rw [jhashFinal_eq]
  exact bijective_unrotate.comp <| (bijective_settle 24).comp <|
    (bijective_settle 14).comp <| (bijective_settle 4).comp <|
    (bijective_settle 16).comp <| (bijective_settle 25).comp <|
    (bijective_settle 11).comp (bijective_settle 14)

end Lines

section Blocks

variable {state other : JhashState}
variable {bytes otherBytes : List Byte}

/-- A byte is a number below 256. -/
theorem toNat_byteAt_lt
    (bytes : List Byte)
    (index : Nat) :
    (byteAt bytes index).toNat < 256 := by
  rw [byteAt, BitVec.toNat_setWidth]
  have inByte := (bytes.getD index 0).isLt
  omega

/-- A word is a number with its bytes as digits. -/
theorem toNat_wordAt
    (bytes : List Byte)
    (index : Nat) :
    (wordAt bytes index).toNat =
      (byteAt bytes index).toNat + (byteAt bytes (index + 1)).toNat * 256 +
          (byteAt bytes (index + 2)).toNat * 65536 +
        (byteAt bytes (index + 3)).toNat * 16777216 := by
  have lowest := toNat_byteAt_lt bytes index
  have second := toNat_byteAt_lt bytes (index + 1)
  have third := toNat_byteAt_lt bytes (index + 2)
  have highest := toNat_byteAt_lt bytes (index + 3)
  simp only [wordAt, BitVec.toNat_add, BitVec.toNat_shiftLeft,
    Nat.shiftLeft_eq]
  omega

/-- The bytes of a word are determined by the word. -/
theorem byteAt_of_wordAt
    {index : Nat}
    (same : wordAt bytes index = wordAt otherBytes index) :
    ∀ offset < 4,
      byteAt bytes (index + offset) = byteAt otherBytes (index + offset) := by
  have digit
      (bytes : List Byte)
      (offset : Nat)
      (inside : offset < 4) :
      (byteAt bytes (index + offset)).toNat =
        (wordAt bytes index).toNat / 256 ^ offset % 256 := by
    have lowest := toNat_byteAt_lt bytes index
    have second := toNat_byteAt_lt bytes (index + 1)
    have third := toNat_byteAt_lt bytes (index + 2)
    have highest := toNat_byteAt_lt bytes (index + 3)
    rw [toNat_wordAt]
    interval_cases offset
    · rw [Nat.add_zero]
      omega
    · omega
    · omega
    · omega
  intro offset inside
  apply BitVec.eq_of_toNat_eq
  rw [digit bytes offset inside, digit otherBytes offset inside, same]

/-- A byte of a key is determined by its value in a block. -/
theorem getElem?_of_byteAt
    {index : Nat}
    (sameLength : bytes.length = otherBytes.length)
    (same : byteAt bytes index = byteAt otherBytes index) :
    bytes[index]? = otherBytes[index]? := by
  by_cases inside : index < bytes.length
  · have otherInside : index < otherBytes.length := by
      omega
    rw [byteAt, byteAt, List.getD_eq_getElem?_getD,
      List.getD_eq_getElem?_getD, List.getElem?_eq_getElem inside,
      List.getElem?_eq_getElem otherInside, Option.getD_some,
      Option.getD_some] at same
    rw [List.getElem?_eq_getElem inside,
      List.getElem?_eq_getElem otherInside, Option.some.injEq]
    apply BitVec.eq_of_toNat_eq
    have equation := congrArg BitVec.toNat same
    rw [BitVec.toNat_setWidth, BitVec.toNat_setWidth] at equation
    have bound := bytes[index].isLt
    have otherBound := otherBytes[index].isLt
    omega
  · rw [List.getElem?_eq_none (by omega), List.getElem?_eq_none (by omega)]

/-- The first block is determined by its bytes. -/
theorem take_eq_of_getElem?
    (same : ∀ index < 12, bytes[index]? = otherBytes[index]?) :
    bytes.take 12 = otherBytes.take 12 := by
  apply List.ext_getElem?
  intro index
  by_cases inBlock : index < 12
  · rw [List.getElem?_take_of_lt inBlock, List.getElem?_take_of_lt inBlock]
    exact same index inBlock
  · rw [List.getElem?_take_eq_none (by omega),
      List.getElem?_take_eq_none (by omega)]

/-- The first block is determined by the variables it is added to. -/
theorem take_eq_of_absorb
    (sameLength : bytes.length = otherBytes.length)
    (same : absorb state bytes = absorb state otherBytes) :
    bytes.take 12 = otherBytes.take 12 := by
  rw [absorb, absorb, JhashState.mk.injEq, BitVec.add_right_inj,
    BitVec.add_right_inj, BitVec.add_right_inj] at same
  obtain ⟨first, second, third⟩ := same
  apply take_eq_of_getElem?
  intro index inBlock
  apply getElem?_of_byteAt sameLength
  by_cases inFirst : index < 4
  · have sameByte := byteAt_of_wordAt first index inFirst
    rwa [Nat.zero_add] at sameByte
  · by_cases inSecond : index < 8
    · have sameByte := byteAt_of_wordAt second (index - 4) (by omega)
      rwa [Nat.add_sub_cancel' (by omega)] at sameByte
    · have sameByte := byteAt_of_wordAt third (index - 8) (by omega)
      rwa [Nat.add_sub_cancel' (by omega)] at sameByte

/-- What is added to the variables depends on the first block. -/
theorem absorb_congr
    (sameBlock : bytes.take 12 = otherBytes.take 12) :
    absorb state bytes = absorb state otherBytes := by
  have sameByte (index : Nat) (inBlock : index < 12) :
      byteAt bytes index = byteAt otherBytes index := by
    rw [byteAt, byteAt, List.getD_eq_getElem?_getD,
      List.getD_eq_getElem?_getD, ← List.getElem?_take_of_lt inBlock,
      sameBlock, List.getElem?_take_of_lt inBlock]
  simp [absorb, wordAt, sameByte]

/-- Adding a block to different variables gives different variables. -/
theorem absorb_injective (bytes : List Byte) :
    Function.Injective fun state => absorb state bytes := by
  intro state other same
  simp only [absorb, JhashState.mk.injEq, BitVec.add_left_inj] at same
  obtain ⟨sameA, sameB, sameC⟩ := same
  cases state
  cases other
  congr

/-- Different variables stay different for the rest of a key. -/
theorem hashBlocks_injective
    (rounds : Nat)
    (bytes : List Byte) :
    Function.Injective fun state => hashBlocks state rounds bytes := by
  induction rounds generalizing bytes with
  | zero =>
      intro state other same
      simp only [hashBlocks] at same
      split at same
      · exact same
      · have sameFinal : absorb state bytes = absorb other bytes :=
          bijective_jhashFinal.injective same
        exact absorb_injective bytes sameFinal
  | succ rounds inductionHypothesis =>
      intro state other same
      simp only [hashBlocks] at same
      have sameMix :
          jhashMix (absorb state bytes) = jhashMix (absorb other bytes) :=
        inductionHypothesis (bytes.drop 12) same
      have sameVars : absorb state bytes = absorb other bytes :=
        bijective_jhashMix.injective sameMix
      exact absorb_injective bytes sameVars

/-- The keys have the same bytes outside of a block. -/
def SameOutsideBlock
    (block : Nat)
    (bytes otherBytes : List Byte) : Prop :=
  ∀ index,
    index < 12 * block ∨ 12 * block + 12 ≤ index →
    bytes[index]? = otherBytes[index]?

/-- Behind the first block, the keys differ in the block before. -/
theorem SameOutsideBlock.drop
    {block : Nat}
    (same : SameOutsideBlock (block + 1) bytes otherBytes) :
    SameOutsideBlock block (bytes.drop 12) (otherBytes.drop 12) := by
  intro index isOutside
  rw [List.getElem?_drop, List.getElem?_drop]
  apply same
  omega

/-- Keys that differ in a later block have the same first block. -/
theorem SameOutsideBlock.take_eq
    {block : Nat}
    (same : SameOutsideBlock (block + 1) bytes otherBytes) :
    bytes.take 12 = otherBytes.take 12 := by
  apply take_eq_of_getElem?
  intro index inBlock
  exact same index (.inl (by omega))

/-- Keys that differ in the first block are the same behind it. -/
theorem SameOutsideBlock.drop_eq
    (same : SameOutsideBlock 0 bytes otherBytes) :
    bytes.drop 12 = otherBytes.drop 12 := by
  apply List.ext_getElem?
  intro index
  rw [List.getElem?_drop, List.getElem?_drop]
  exact same _ (.inr (by omega))

/-- A difference inside of one block is not lost. -/
theorem hashBlocks_ne
    {block rounds : Nat}
    (isRounds : blocksBefore bytes.length = rounds)
    (sameLength : bytes.length = otherBytes.length)
    (different : bytes ≠ otherBytes)
    (same : SameOutsideBlock block bytes otherBytes) :
    hashBlocks state rounds bytes ≠ hashBlocks state rounds otherBytes := by
  rw [blocksBefore] at isRounds
  induction rounds generalizing state block bytes otherBytes with
  | zero =>
      have notEmpty : bytes ≠ [] := by
        intro isEmpty
        apply different
        rw [isEmpty, List.length_nil] at sameLength
        rw [isEmpty, List.eq_nil_of_length_eq_zero sameLength.symm]
      have otherNotEmpty : otherBytes ≠ [] := by
        rw [← List.length_pos_iff, ← sameLength, List.length_pos_iff]
        exact notEmpty
      rw [hashBlocks, hashBlocks, if_neg notEmpty, if_neg otherNotEmpty]
      intro sameEnd
      apply different
      have sameBlock :=
        take_eq_of_absorb sameLength (bijective_jhashFinal.1 sameEnd)
      rwa [List.take_of_length_le (by omega),
        List.take_of_length_le (by omega)] at sameBlock
  | succ rounds inductionHypothesis =>
      rw [hashBlocks, hashBlocks]
      cases block with
      | zero =>
          intro sameEnd
          rw [same.drop_eq] at sameEnd
          have sameMix := hashBlocks_injective rounds _ sameEnd
          have sameBlock :=
            take_eq_of_absorb sameLength (bijective_jhashMix.1 sameMix)
          apply different
          rw [← List.take_append_drop 12 bytes, sameBlock, same.drop_eq,
            List.take_append_drop]
      | succ block =>
          rw [absorb_congr same.take_eq]
          refine inductionHypothesis ?_ ?_ ?_ same.drop
          · rw [List.length_drop]
            omega
          · rw [List.length_drop, List.length_drop, sameLength]
          · intro sameRest
            apply different
            rw [← List.take_append_drop 12 bytes, same.take_eq, sameRest,
              List.take_append_drop]

end Blocks

/--
Mixing loses no information: both ways to mix are bijections, and two keys of
the same length that differ inside of one block only lead to different variables
at the end of `jhash`.
-/
theorem mixing_loses_nothing :
    Function.Bijective jhashMix ∧
      Function.Bijective jhashFinal ∧
      ∀ (memory other : ByteMemory) (key otherKey : Word)
          (bytes otherBytes : List Byte) (initval : BitVec 32)
          (block : Nat),
        KeyAt memory key bytes →
        KeyAt other otherKey otherBytes →
        bytes.length < 2 ^ 32 →
        bytes.length = otherBytes.length →
        bytes ≠ otherBytes →
        SameOutsideBlock block bytes otherBytes →
        (jhashEnd key (BitVec.ofNat 32 bytes.length)
          initval).Ensures memory fun state _ =>
            (jhashEnd otherKey (BitVec.ofNat 32 otherBytes.length)
              initval).Ensures other fun otherState _ =>
                state ≠ otherState := by
  refine ⟨bijective_jhashMix, bijective_jhashFinal, ?_⟩
  intro memory other key otherKey bytes otherBytes initval block keyAt
    otherKeyAt short sameLength different same
  refine (keyAt.ensures_jhashEnd short initval).weaken ?_
  intro state after isEnd
  obtain ⟨-, rfl⟩ := isEnd
  refine (otherKeyAt.ensures_jhashEnd (by omega) initval).weaken ?_
  intro otherState after isEnd
  obtain ⟨-, rfl⟩ := isEnd
  rw [hashEndOf, hashEndOf, ← sameLength]
  exact hashBlocks_ne rfl sameLength different same

/-- A key of three blocks with this byte in the second one. -/
def threeBlocks (byte : Byte) : List Byte :=
  List.replicate 14 7 ++ byte :: List.replicate 13 9

/-- The variables are not the same if only the second block differs. -/
theorem mixing_loses_nothing_of_sample :
    (jhashEnd 16 28 5).Ensures (valuesAt 16 1 (threeBlocks 1))
      fun state _ =>
        (jhashEnd 64 28 5).Ensures (valuesAt 64 1 (threeBlocks 2))
          fun otherState _ => state ≠ otherState := by
  have sameOutside :
      SameOutsideBlock 1 (threeBlocks 1) (threeBlocks 2) := by
    intro index isOutside
    rcases isOutside with before | behind
    · have checked :
          ∀ index < 12,
            (threeBlocks 1)[index]? = (threeBlocks 2)[index]? := by
        decide
      exact checked index (by omega)
    · obtain ⟨rest, rfl⟩ := Nat.exists_eq_add_of_le behind
      rw [← List.getElem?_drop, ← List.getElem?_drop]
      rfl
  have keyAt :
      KeyAt (valuesAt 16 1 (threeBlocks 1)) 16 (threeBlocks 1) :=
    keyAt_valuesAt (threeBlocks 1) (by decide) (by decide)
  have otherKeyAt :
      KeyAt (valuesAt 64 1 (threeBlocks 2)) 64 (threeBlocks 2) :=
    keyAt_valuesAt (threeBlocks 2) (by decide) (by decide)
  have different : threeBlocks 1 ≠ threeBlocks 2 := by
    decide
  have differs :=
    mixing_loses_nothing.2.2 _ _ 16 64 _ _ 5 1 keyAt otherKeyAt
      (by decide) rfl different sameOutside
  have length : (threeBlocks 1).length = 28 := rfl
  have otherLength : (threeBlocks 2).length = 28 := rfl
  rw [length, otherLength] at differs
  exact differs

end LibKern.Jhash
