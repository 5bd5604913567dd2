import LibKern.JhashMixing

namespace LibKern.Jhash

/-!
# Hashing a fixed number of words

`jhash_3words` and its variants mix a state of their own: the number of words is
not part of it, and `initval` is added to `c` only.  The result is the one of
`jhash2` on a shifted key with a shifted `initval`, but never that of the same
key with the same `initval`.
-/

open Program

/-- `jhash2` returns this hash for these words, wherever they are stored. -/
def Jhash2Returns
    (words : List (BitVec 32))
    (initval hash : BitVec 32) : Prop :=
  ∀ memory k, ItemsAt memory k words →
    (jhash2 k (BitVec.ofNat 32 words.length) initval).Returns
      memory hash memory

/-- The variables of `jhash2` at its end are not these, for these words. -/
def Jhash2EndsApart
    (words : List (BitVec 32))
    (initval : BitVec 32)
    (state : JhashState) : Prop :=
  ∀ memory k, ItemsAt memory k words →
    (jhash2End k (BitVec.ofNat 32 words.length) initval).Ensures memory
      fun finalState _ => finalState ≠ state

section Fixed

variable {words : List (BitVec 32)}

/-- The hash of up to three words has one block. -/
theorem hashEndOf_bytesOf
    (nonempty : 0 < words.length)
    (atMost : words.length ≤ 3)
    (initval : BitVec 32) :
    hashEndOf (bytesOf words) initval =
      let start := jhashInitval + BitVec.ofNat 32 (4 * words.length) + initval
      jhashFinal ⟨start + words.getD 0 0, start + words.getD 1 0,
        start + words.getD 2 0⟩ := by
  have oneBlock : blocksBefore (4 * words.length) = 0 := by
    rw [blocksBefore]
    omega
  have someByte : bytesOf words ≠ [] := by
    rw [← List.length_pos_iff, length_bytesOf]
    omega
  rw [hashEndOf, length_bytesOf, oneBlock, hashBlocks, if_neg someByte,
    absorb_bytesOf]

/-- The words are added to `initval` if this is shifted. -/
theorem hashEndOf_shifted
    (nonempty : 0 < words.length)
    (atMost : words.length ≤ 3)
    (initval : BitVec 32) :
    hashEndOf (bytesOf words)
        (initval - jhashInitval - BitVec.ofNat 32 (4 * words.length)) =
      jhashFinal ⟨initval + words.getD 0 0, initval + words.getD 1 0,
        initval + words.getD 2 0⟩ := by
  have isStart :
      jhashInitval + BitVec.ofNat 32 (4 * words.length) +
          (initval - jhashInitval -
            BitVec.ofNat 32 (4 * words.length)) =
        initval := by
    bv_omega
  rw [hashEndOf_bytesOf nonempty atMost, isStart]

/-- A shifted word that is added to `initval`. -/
theorem add_shifted
    (word initval : BitVec 32) :
    initval + (word + jhashInitval - initval) = word + jhashInitval := by
  bv_omega

/-- `jhash2` returns the hash of its only block. -/
theorem jhash2Returns_of_end
    {initval : BitVec 32}
    {state : JhashState}
    (atMost : words.length ≤ 3)
    (isEnd : hashEndOf (bytesOf words) initval = state) :
    Jhash2Returns words initval state.c := by
  intro memory k itemsAt
  obtain ⟨hash, after, returned, rfl, rfl⟩ :=
    itemsAt.ensures_jhash2 (by omega) initval
  rw [← isEnd]
  exact returned

/-- The variables are different at the end if they are different before. -/
theorem jhash2EndsApart_of_ne
    {a b c initval : BitVec 32}
    (nonempty : 0 < words.length)
    (atMost : words.length ≤ 3)
    (different :
      jhashInitval + BitVec.ofNat 32 (4 * words.length) + initval +
        words.getD 2 0 ≠ c + initval) :
    Jhash2EndsApart words initval (jhash3wordsEnd a b c initval) := by
  intro memory k itemsAt
  refine (itemsAt.ensures_jhash2End (by omega) initval).weaken ?_
  intro state after result
  obtain ⟨-, rfl⟩ := result
  rw [hashEndOf_bytesOf nonempty atMost, jhash3wordsEnd]
  intro same
  have sameBefore := bijective_jhashFinal.injective same
  exact different (congrArg JhashState.c sameBefore)

end Fixed

/--
The hashes of three and of two words are those of an array of as many words,
with `a`, `b` and `initval` shifted; the hash of one word is the one of two words
of which the second is zero.  For the same words and the same `initval` the
variables of the two functions are never the same at the end.
-/
theorem fixed_words_shifted
    (a b c initval : BitVec 32) :
    Jhash2Returns
        [a + jhashInitval - initval, b + jhashInitval - initval, c]
        (initval - jhashInitval - 12) (jhash3words a b c initval) ∧
      Jhash2Returns
        [a + jhashInitval - initval, b + jhashInitval - initval]
        (initval - jhashInitval - 8) (jhash2words a b initval) ∧
      jhash1word a initval = jhash2words a 0 initval ∧
      Jhash2EndsApart [a, b, c] initval
        (jhash3wordsEnd a b c initval) ∧
      Jhash2EndsApart [a, b] initval
        (jhash3wordsEnd a b 0 initval) ∧
      Jhash2EndsApart [a] initval
        (jhash3wordsEnd a 0 0 initval) := by
  refine ⟨jhash2Returns_of_end (by simp) ?_,
    jhash2Returns_of_end (by simp) ?_, rfl,
    jhash2EndsApart_of_ne (by simp) (by simp) ?_,
    jhash2EndsApart_of_ne (by simp) (by simp) ?_,
    jhash2EndsApart_of_ne (by simp) (by simp) ?_⟩
  · refine (hashEndOf_shifted (by simp) (by simp) initval).trans ?_
    simp only [List.getD_cons_zero, List.getD_cons_succ]
    rw [jhash3wordsEnd, BitVec.add_comm c, add_shifted, add_shifted]
  · refine (hashEndOf_shifted (by simp) (by simp) initval).trans ?_
    simp only [List.getD_cons_zero, List.getD_cons_succ, List.getD_nil]
    rw [jhash3wordsEnd, BitVec.add_comm 0, add_shifted, add_shifted]
  · simp [jhashInitval]
    bv_omega
  · simp [jhashInitval]
  · simp [jhashInitval]

/-- For zeros the two ways to hash one, two or three words differ. -/
theorem zero_words_hashed_apart :
    ¬Jhash2Returns [0, 0, 0] 0 (jhash3words 0 0 0 0) ∧
      ¬Jhash2Returns [0, 0] 0 (jhash2words 0 0 0) ∧
      ¬Jhash2Returns [0] 0 (jhash1word 0 0) := by
  have notReturned
      {words : List (BitVec 32)}
      {hash : BitVec 32}
      (atMost : words.length ≤ 3)
      (different : hash ≠ hashOf (bytesOf words) 0) :
      ¬Jhash2Returns words 0 hash := by
    intro returns
    have itemsAt : ItemsAt (valuesAt 16 4 words) 16 words := by
      intro index inside
      exact valuesAt_cell words index (by decide) (by decide) (by omega)
    obtain ⟨-, isHash⟩ :=
      (itemsAt.ensures_jhash2 (by omega) 0).of_returns
        (returns _ _ itemsAt)
    exact different isHash
  exact ⟨notReturned (by decide) (by decide),
    notReturned (by decide) (by decide),
    notReturned (by decide) (by decide)⟩

end LibKern.Jhash
