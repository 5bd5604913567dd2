import LibKern.BitmapMaps
import LibKern.Visits

namespace LibKern.Bitmap

/-!
# Loops over set bits that change the bitmap

`for_each_set_bit` looks for the next set bit after its body has run.  With any
body, also one that sets and clears bits of the bitmap itself, the loop does the
same as a loop over all positions that tests every bit when it gets there.
-/

open Program

section Plain

variable {β : Type}

/-- Run the body for a position whose bit is set. -/
def whenSet
    (addr : Int)
    (body : Nat → β → Program CMemory β)
    (bit : Nat)
    (current : β) :
    Program CMemory β := do
  let isSet ← testBit bit addr
  if isSet = true then body bit current else pure current

/-- A loop over all positions that tests every bit. -/
def forEachTestedBit
    (addr : Int)
    (size : Nat)
    (start : β)
    (body : Nat → β → Program CMemory β) :
    Program CMemory β :=
  foldUp size start (whenSet addr body)

end Plain

section Sweep

variable {β : Type}
variable {body : Nat → β → Program CMemory β}
variable {memory state : CMemory}
variable {addr : Int}
variable {size offset bit : Nat}
variable {post : β → CMemory → Prop}

/-- The plain loop from a position on. -/
def testedFrom
    (addr : Int)
    (body : Nat → β → Program CMemory β)
    (offset count : Nat)
    (current : β) :
    Program CMemory β :=
  (List.range' offset count).foldlM
    (fun current index => whenSet addr body index current) current

/-- A position whose bit is clear does not matter. -/
theorem ensures_whenSet_of_clear
    {current : β}
    (mapped : state.longs.Mapped addr (bitsToLongs size))
    (below : bit < size)
    (clear : state.longs.bit addr bit = false) :
    (whenSet addr body bit current).Ensures state post ↔
      post current state := by
  obtain ⟨result, after, returned, rfl, rfl⟩ :=
    ensures_testBit mapped below
  rw [whenSet, ensures_bind, returned.ensures_iff, clear]
  simp

/-- A position whose bit is set is handled by the body. -/
theorem ensures_whenSet_of_set
    {current : β}
    (mapped : state.longs.Mapped addr (bitsToLongs size))
    (below : bit < size)
    (isSet : state.longs.bit addr bit = true) :
    (whenSet addr body bit current).Ensures state post ↔
      (body bit current).Ensures state post := by
  obtain ⟨result, after, returned, rfl, rfl⟩ :=
    ensures_testBit mapped below
  rw [whenSet, ensures_bind, returned.ensures_iff, isSet]
  simp

/-- The plain loop passes over clear bits. -/
theorem ensures_testedFrom_of_clear
    {current : β}
    {count more : Nat}
    (mapped : state.longs.Mapped addr (bitsToLongs size))
    (inside : offset + count ≤ size)
    (clear :
      ∀ index, offset ≤ index → index < offset + count →
        state.longs.bit addr index = false) :
    (testedFrom addr body offset (count + more) current).Ensures state
        post ↔
      (testedFrom addr body (offset + count) more current).Ensures state
        post := by
  induction count generalizing offset with
  | zero =>
      rw [Nat.zero_add, Nat.add_zero]
  | succ count inductionHypothesis =>
      have first : state.longs.bit addr offset = false :=
        clear offset le_rfl (by omega)
      have shifted : offset + 1 + count = offset + (count + 1) := by
        omega
      rw [testedFrom, Nat.add_right_comm, List.range'_succ,
        List.foldlM_cons, ensures_bind,
        ensures_whenSet_of_clear mapped (by omega) first]
      have rest :=
        inductionHypothesis (by omega : offset + 1 + count ≤ size)
          (fun index above below =>
            clear index (by omega) (by omega))
      rw [shifted] at rest
      exact rest

/-- Both loops go on from the same position. -/
theorem ensures_eachSetBit_iff_testedFrom
    {current : β}
    (keeps :
      ∀ bit < size, ∀ current,
        (body bit current).Preserves fun memory =>
          memory.longs.Mapped addr (bitsToLongs size))
    (mapped : state.longs.Mapped addr (bitsToLongs size))
    (first : FirstSet state.longs addr size offset bit)
    (above : offset ≤ bit) :
    (loop (eachSetBit addr size body) (bit, current)).Ensures state post ↔
      (testedFrom addr body offset (size - offset) current).Ensures state
        post := by
  induction remaining : size - bit using Nat.strong_induction_on
    generalizing offset bit state current with
  | h remaining inductionHypothesis =>
      subst remaining
      have atMost := first.atMost
      have parts : size - offset = (bit - offset) + (size - bit) := by
        omega
      have reached : offset + (bit - offset) = bit := by
        omega
      rw [parts, ensures_testedFrom_of_clear mapped (by omega)
        (fun index isAbove below =>
          first.clear index isAbove (by omega)), reached, ensures_loop,
        eachSetBit]
      by_cases inside : bit < size
      · have oneMore : size - bit = (size - (bit + 1)) + 1 := by
          omega
        rw [if_pos inside, ensures_bind, oneMore, testedFrom,
          List.range'_succ, List.foldlM_cons, ensures_bind,
          ensures_whenSet_of_set mapped inside (first.found inside).2]
        refine Permits.ensures_congr ?_
        refine (keeps bit inside current state mapped).weaken ?_
        intro next after stillMapped
        have scanned :
            (findNextBit addr size (bit + 1)).Ensures after
              fun found between =>
                between = after ∧
                  FirstSet after.longs addr size (bit + 1) found :=
          ensures_findNextBit stillMapped
        obtain ⟨found, between, returned, rfl, isFirst⟩ := scanned
        rw [ensures_bind, returned.ensures_iff, ensures_pure]
        have later : bit + 1 ≤ found := by
          by_contra notLater
          have atLeast := isFirst.found (by omega)
          omega
        exact inductionHypothesis (size - found) (by omega) stillMapped
          isFirst later rfl
      · have nothing : size - bit = 0 := by
          omega
        rw [if_neg inside, nothing]
        simp [testedFrom]

/-- The loop over the set bits is the loop over all positions. -/
theorem ensures_forEachSetBit_iff_tested
    {start : β}
    (keeps :
      ∀ bit < size, ∀ current,
        (body bit current).Preserves fun memory =>
          memory.longs.Mapped addr (bitsToLongs size))
    (mapped : memory.longs.Mapped addr (bitsToLongs size)) :
    (forEachSetBit addr size start body).Ensures memory post ↔
      (forEachTestedBit addr size start body).Ensures memory post := by
  obtain ⟨first, after, returned, rfl, isFirst⟩ :=
    ensures_findFirstBit mapped
  rw [forEachSetBit, ensures_bind, returned.ensures_iff,
    ensures_eachSetBit_iff_testedFrom keeps mapped isFirst (Nat.zero_le _),
    forEachTestedBit, ensures_foldUp_iff, List.range_eq_range']
  rfl

/-- What a loop has visited before it gets to a position. -/
structure Swept
    (addr : Int)
    (size bit : Nat)
    (visited : List Nat)
    (state : CMemory) : Prop where
  mapped : state.longs.Mapped addr (bitsToLongs size)
  ascending : visited.Pairwise (· < ·)
  below : ∀ index ∈ visited, index < bit

/-- A loop over all positions visits some of them in ascending order. -/
theorem ensures_forEachTestedBit_swept
    {action : Nat → Program CMemory Unit}
    (acts :
      ∀ bit < size, ∀ state : CMemory,
        state.longs.Mapped addr (bitsToLongs size) →
        state.longs.bit addr bit = true →
        (action bit).Ensures state fun _ after =>
          after.longs.Mapped addr (bitsToLongs size))
    (mapped : memory.longs.Mapped addr (bitsToLongs size)) :
    (forEachTestedBit addr size [] (noting action id)).Ensures memory
      (Swept addr size size) := by
  refine ensures_foldUp (Swept addr size) ⟨mapped, .nil, by simp⟩ ?_
  intro bit below visited state swept
  cases isBit : state.longs.bit addr bit with
  | false =>
      rw [ensures_whenSet_of_clear swept.mapped below isBit]
      exact
        { swept with
          below := fun index member =>
            (swept.below index member).trans (Nat.lt_succ_self bit) }
  | true =>
      rw [ensures_whenSet_of_set swept.mapped below isBit, noting,
        ensures_bind]
      refine (acts bit below state swept.mapped isBit).weaken ?_
      intro _ after stillMapped
      rw [ensures_pure]
      refine ⟨stillMapped, ?_, ?_⟩
      · refine List.pairwise_append.mpr
          ⟨swept.ascending, List.pairwise_singleton _ _, ?_⟩
        intro index member later isLater
        rw [List.mem_singleton.mp isLater]
        exact swept.below index member
      · intro index member
        rcases List.mem_append.mp member with earlier | isBit
        · exact (swept.below index earlier).trans (Nat.lt_succ_self bit)
        · rw [List.mem_singleton.mp isBit]
          exact Nat.lt_succ_self bit

end Sweep

/--
With every body that keeps the words of the bitmap mapped, `for_each_set_bit`
does the same as a loop over all positions that tests each bit when it gets
there.  So it ends if its body does, even if the body sets bits that are still
ahead, and it visits no position twice.  The loop looks at the bit itself; a loop
that calls `test_bit` is the same for positions below `2 ^ 32`, since `test_bit`
takes an `unsigned int`.
-/
theorem forEachSetBit_is_plain_loop
    {memory : CMemory}
    {addr : Int}
    {size : Nat}
    (mapped : memory.longs.Mapped addr (bitsToLongs size)) :
    (∀ (β : Type) (start : β) (body : Nat → β → Program CMemory β),
      (∀ bit < size, ∀ current,
        (body bit current).Preserves fun memory =>
          memory.longs.Mapped addr (bitsToLongs size)) →
      ∀ post,
        (forEachSetBit addr size start body).Ensures memory post ↔
          (forEachTestedBit addr size start body).Ensures memory post) ∧
      ∀ action : Nat → Program CMemory Unit,
        (∀ bit < size, ∀ state : CMemory,
          state.longs.Mapped addr (bitsToLongs size) →
          (action bit).Ensures state fun _ after =>
            after.longs.Mapped addr (bitsToLongs size)) →
        (forEachSetBit addr size [] (noting action id)).Ensures memory
          fun visited _ =>
            visited.Pairwise (· < ·) ∧ ∀ bit ∈ visited, bit < size := by
  constructor
  · intro β start body keeps post
    exact ensures_forEachSetBit_iff_tested keeps mapped
  · intro action acts
    have keeps :
        ∀ bit < size, ∀ visited,
          (noting action id bit visited).Preserves fun memory =>
            memory.longs.Mapped addr (bitsToLongs size) := by
      intro bit below visited
      refine Preserves.bind ?_ fun _ => preserves_pure _
      intro state stillMapped
      exact (acts bit below state stillMapped).permits
    rw [ensures_forEachSetBit_iff_tested keeps mapped]
    refine (ensures_forEachTestedBit_swept
      (fun bit below state stillMapped _ => acts bit below state stillMapped)
      mapped).weaken ?_
    intro visited _ swept
    exact ⟨swept.ascending, swept.below⟩

/-- One word with its lowest bit set. -/
def sweptWord : CMemory where
  longs := .ofList [1]
  chars := .ofList []

/-- A loop that sets every other bit ahead of it visits these bits, too. -/
theorem forEachSetBit_is_plain_loop_of_sample :
    (forEachTestedBit 0 6 []
      (noting (fun bit => setBit (bit + 2) 0) id)).Ensures sweptWord
        fun visited _ => visited = [0, 2, 4] := by
  have mapped : sweptWord.longs.Mapped 0 (bitsToLongs 6) :=
    Region.mapped_ofList (by decide)
  have keeps :
      ∀ bit < 6, ∀ visited,
        (noting (fun bit => setBit (bit + 2) 0) id bit visited).Preserves
          fun memory => memory.longs.Mapped 0 (bitsToLongs 6) := by
    intro bit below visited
    refine Preserves.bind ?_ fun _ => preserves_pure _
    intro state stillMapped
    refine (ensures_setBit stillMapped ?_).permits.weaken ?_
    · rw [bitsToLongs, id]
      omega
    · intro _ after result
      exact result.2.1
  refine ((forEachSetBit_is_plain_loop mapped).1 _ _ _ keeps _).mp ?_
  exact .of_exec 7 (by decide)

end LibKern.Bitmap
