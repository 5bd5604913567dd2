import LibKern.BitmapMaps

namespace LibKern.Bitmap

/-!
# Unused bits are don't care

The unused bits in the last word of a bitmap must not affect the value and the
used bits of the result of an operation.  `__bitmap_and` and `__bitmap_andnot`
look at the unused bits of the result when they compute their value.
-/

open Program

/-- What an operation returns. -/
inductive Value where
  | nothing
  | truth (value : Bool)
  | number (value : Int)
  deriving Repr, DecidableEq

/-- The operations of `lib/bitmap.c` that also have an inline version. -/
inductive WordOperation where
  | empty (bitmap : Int)
  | full (bitmap : Int)
  | equal (bitmap1 bitmap2 : Int)
  | intersects (bitmap1 bitmap2 : Int)
  | subset (bitmap1 bitmap2 : Int)
  | weight (bitmap : Int)
  | complement (dst src : Int)
  | shiftLeft (dst src : Int) (shift : Nat)
  | shiftRight (dst src : Int) (shift : Nat)
  | and (dst bitmap1 bitmap2 : Int)
  | or (dst bitmap1 bitmap2 : Int)
  | xor (dst bitmap1 bitmap2 : Int)
  | andnot (dst bitmap1 bitmap2 : Int)

/-- The operations on bitmaps that return a value or have a result. -/
inductive Operation where
  | word (operation : WordOperation)
  | remap (dst src old new : Int)
  | bitremap (oldbit old new : Int)
  | onto (dst orig relmap : Int)
  | fold (dst orig : Int) (sz : Nat)

/-- A program that returns no value. -/
def noValue (program : Program CMemory Unit) : Program CMemory Value := do
  program
  pure .nothing

/-- A program that returns a truth value. -/
def truthValue
    (program : Program CMemory Bool) :
    Program CMemory Value := do
  let value ← program
  pure (.truth value)

/-- The function of `lib/bitmap.c` for an operation. -/
def WordOperation.program (bits : Nat) :
    WordOperation → Program CMemory Value
  | .empty bitmap => truthValue (bitmapEmpty bitmap bits)
  | .full bitmap => truthValue (bitmapFull bitmap bits)
  | .equal bitmap1 bitmap2 => truthValue (bitmapEqual bitmap1 bitmap2 bits)
  | .intersects bitmap1 bitmap2 =>
      truthValue (bitmapIntersects bitmap1 bitmap2 bits)
  | .subset bitmap1 bitmap2 =>
      truthValue (bitmapSubset bitmap1 bitmap2 bits)
  | .weight bitmap => do
      let w ← bitmapWeight bitmap bits
      pure (.number w)
  | .complement dst src => noValue (bitmapComplement dst src bits)
  | .shiftLeft dst src shift => noValue (bitmapShiftLeft dst src shift bits)
  | .shiftRight dst src shift =>
      noValue (bitmapShiftRight dst src shift bits)
  | .and dst bitmap1 bitmap2 =>
      truthValue (bitmapAnd dst bitmap1 bitmap2 bits)
  | .or dst bitmap1 bitmap2 => noValue (bitmapOr dst bitmap1 bitmap2 bits)
  | .xor dst bitmap1 bitmap2 => noValue (bitmapXor dst bitmap1 bitmap2 bits)
  | .andnot dst bitmap1 bitmap2 =>
      truthValue (bitmapAndnot dst bitmap1 bitmap2 bits)

/-- The bitmaps that an operation reads. -/
def WordOperation.inputs : WordOperation → List Int
  | .empty bitmap => [bitmap]
  | .full bitmap => [bitmap]
  | .equal bitmap1 bitmap2 => [bitmap1, bitmap2]
  | .intersects bitmap1 bitmap2 => [bitmap1, bitmap2]
  | .subset bitmap1 bitmap2 => [bitmap1, bitmap2]
  | .weight bitmap => [bitmap]
  | .complement _ src => [src]
  | .shiftLeft _ src _ => [src]
  | .shiftRight _ src _ => [src]
  | .and _ bitmap1 bitmap2 => [bitmap1, bitmap2]
  | .or _ bitmap1 bitmap2 => [bitmap1, bitmap2]
  | .xor _ bitmap1 bitmap2 => [bitmap1, bitmap2]
  | .andnot _ bitmap1 bitmap2 => [bitmap1, bitmap2]

/-- The bitmap that an operation writes. -/
def WordOperation.outputs : WordOperation → List Int
  | .complement dst _ => [dst]
  | .shiftLeft dst _ _ => [dst]
  | .shiftRight dst _ _ => [dst]
  | .and dst _ _ => [dst]
  | .or dst _ _ => [dst]
  | .xor dst _ _ => [dst]
  | .andnot dst _ _ => [dst]
  | _ => []

namespace Operation

/-- The function of `lib/bitmap.c` for an operation. -/
def program (bits : Nat) : Operation → Program CMemory Value
  | .word operation => operation.program bits
  | .remap dst src old new => noValue (bitmapRemap dst src old new bits)
  | .bitremap oldbit old new => do
      let newbit ← bitmapBitremap oldbit old new bits
      pure (.number newbit)
  | .onto dst orig relmap => noValue (bitmapOnto dst orig relmap bits)
  | .fold dst orig sz => noValue (bitmapFold dst orig sz bits)

/-- The bitmaps that an operation reads. -/
def inputs : Operation → List Int
  | .word operation => operation.inputs
  | .remap _ src old new => [src, old, new]
  | .bitremap _ old new => [old, new]
  | .onto _ orig relmap => [orig, relmap]
  | .fold _ orig _ => [orig]

/-- The bitmap that an operation writes. -/
def outputs : Operation → List Int
  | .word operation => operation.outputs
  | .remap dst _ _ _ => [dst]
  | .bitremap _ _ _ => []
  | .onto dst _ _ => [dst]
  | .fold dst _ _ => [dst]

/-- The arguments other than the bitmaps are allowed. -/
def Allowed (bits : Nat) : Operation → Prop
  | .word (.shiftLeft _ _ shift) => shift ≤ bits
  | .word (.shiftRight _ _ shift) => shift ≤ bits
  | .fold _ _ sz => 1 ≤ sz
  | _ => True

/--
The bitmaps can be accessed, and the result is one of the arguments or does not
overlap with them.
-/
structure Placed
    (operation : Operation)
    (bits : Nat)
    (memory : CMemory) : Prop where
  inputs :
    ∀ bitmap ∈ operation.inputs,
      memory.longs.Mapped bitmap (bitsToLongs bits)
  outputs :
    ∀ dst ∈ operation.outputs,
      memory.longs.Mapped dst (bitsToLongs bits)
  apart :
    ∀ dst ∈ operation.outputs, ∀ bitmap ∈ operation.inputs,
      SameOrApart dst bitmap (bitsToLongs bits)

/--
Two runs return the same value, and the used bits of the result are the same.
-/
def SameResult
    (operation : Operation)
    (bits : Nat)
    (one other : CMemory) : Prop :=
  (operation.program bits).Twin one other fun _ after otherAfter =>
    ∀ dst ∈ operation.outputs, ∀ index < bits,
      after.longs.bit dst index = otherAfter.longs.bit dst index

end Operation

/-- Some bit of this part of the combined bitmaps is set. -/
def AnySet
    (onBits : Bool → Bool → Bool)
    (bitmap1 bitmap2 : Int)
    (first last : Nat)
    (memory : CMemory) : Prop :=
  ∃ index, first ≤ index ∧ index < last ∧
    combinedBits onBits memory.longs bitmap1 bitmap2 index = true

/--
The unused bits do not matter for a combined bitmap: a used bit of it is set,
or its unused bits are zero in both or none of the memories.
-/
def UnusedDontMatter
    (onBits : Bool → Bool → Bool)
    (bitmap1 bitmap2 : Int)
    (bits : Nat)
    (one other : CMemory) : Prop :=
  AnySet onBits bitmap1 bitmap2 0 bits one ∨
    (AnySet onBits bitmap1 bitmap2 bits (bitsToLongs bits * 64) one ↔
      AnySet onBits bitmap1 bitmap2 bits (bitsToLongs bits * 64) other)

/-- When the unused bits of the arguments do not affect an operation. -/
def Operation.IgnoresUnused
    (bits : Nat)
    (one other : CMemory) : Operation → Prop
  | .word (.and _ bitmap1 bitmap2) =>
      UnusedDontMatter and bitmap1 bitmap2 bits one other
  | .word (.andnot _ bitmap1 bitmap2) =>
      UnusedDontMatter (fun first second => first && !second) bitmap1
        bitmap2 bits one other
  | _ => True

section Runs

variable {one other : CMemory}
variable {bits : Nat}
variable {dst bitmap1 bitmap2 : Int}

theorem twin_noValue
    {program : Program CMemory Unit}
    {related : CMemory → CMemory → Prop}
    (twin : program.Twin one other fun _ => related) :
    (noValue program).Twin one other fun _ => related :=
  .bind (twin.weaken fun _ _ _ areRelated => twin_pure.mpr areRelated)

/-- A test of the same condition in both runs. -/
theorem twin_truthValue
    {program : Program CMemory Bool}
    {condition otherCondition : Prop}
    {related : Value → CMemory → CMemory → Prop}
    (ensured :
      program.Ensures one fun value after =>
        after = one ∧ (value = true ↔ condition))
    (otherEnsured :
      program.Ensures other fun value after =>
        after = other ∧ (value = true ↔ otherCondition))
    (same : condition ↔ otherCondition)
    (always : ∀ value after otherAfter, related value after otherAfter) :
    (truthValue program).Twin one other related := by
  refine .bind (.of_ensures ensured otherEnsured ?_)
  intro value after otherValue otherAfter result otherResult
  refine ⟨?_, twin_pure.mpr (always _ _ _)⟩
  rw [Bool.eq_iff_iff, result.2, otherResult.2, same]

/-- The used bits of the results of both runs. -/
theorem Becomes.same
    {value otherValue : Nat → Bool}
    {after otherAfter : CMemory}
    (becomes : Becomes one dst bits value after)
    (otherBecomes : Becomes other dst bits otherValue otherAfter)
    (same : ∀ index < bits, value index = otherValue index) :
    ∀ index < bits,
      after.longs.bit dst index = otherAfter.longs.bit dst index := by
  intro index used
  have inside : index < bitsToLongs bits * 64 := by
    simp only [bitsToLongs]
    omega
  rw [becomes.isValue index inside, otherBecomes.isValue index inside,
    same index used]

/-- An operation without a value has the same result in both runs. -/
theorem twin_noValue_becomes
    {program : Program CMemory Unit}
    {value otherValue : Nat → Bool}
    (ensured :
      program.Ensures one fun _ => Becomes one dst bits value)
    (otherEnsured :
      program.Ensures other fun _ => Becomes other dst bits otherValue)
    (same : ∀ index < bits, value index = otherValue index) :
    (noValue program).Twin one other fun _ after otherAfter =>
      ∀ bitmap ∈ [dst], ∀ index < bits,
        after.longs.bit bitmap index =
          otherAfter.longs.bit bitmap index := by
  refine twin_noValue (.of_ensures ensured otherEnsured ?_)
  intro _ after _ otherAfter becomes otherBecomes
  refine ⟨rfl, ?_⟩
  rw [List.forall_mem_singleton]
  exact becomes.same otherBecomes same

/-- The bits of a combined bitmap agree where the arguments do. -/
theorem combinedBits_congr
    {onBits : Bool → Bool → Bool}
    (same1 :
      ∀ index < bits,
        one.longs.bit bitmap1 index = other.longs.bit bitmap1 index)
    (same2 :
      ∀ index < bits,
        one.longs.bit bitmap2 index = other.longs.bit bitmap2 index) :
    ∀ index < bits,
      combinedBits onBits one.longs bitmap1 bitmap2 index =
        combinedBits onBits other.longs bitmap1 bitmap2 index := by
  intro index used
  rw [combinedBits, combinedBits, same1 index used, same2 index used]

theorem anySet_split
    {onBits : Bool → Bool → Bool}
    {memory : CMemory} :
    (∃ index < bitsToLongs bits * 64,
      combinedBits onBits memory.longs bitmap1 bitmap2 index = true) ↔
      AnySet onBits bitmap1 bitmap2 0 bits memory ∨
        AnySet onBits bitmap1 bitmap2 bits (bitsToLongs bits * 64)
          memory := by
  constructor
  · intro isSet
    obtain ⟨index, inside, isSet⟩ := isSet
    by_cases used : index < bits
    · exact .inl ⟨index, Nat.zero_le _, used, isSet⟩
    · exact .inr ⟨index, by omega, inside, isSet⟩
  · intro isSet
    rcases isSet with ⟨index, _, used, isSet⟩ | ⟨index, _, inside, isSet⟩
    · refine ⟨index, ?_, isSet⟩
      simp only [bitsToLongs]
      omega
    · exact ⟨index, inside, isSet⟩

/-- A common alternative hides the difference of the others. -/
theorem or_iff_or_of_iff
    {used otherUsed unused otherUnused : Prop}
    (same : used ↔ otherUsed) :
    (used ∨ unused ↔ otherUsed ∨ otherUnused) ↔
      used ∨ (unused ↔ otherUnused) := by
  by_cases isUsed : used
  · simp [isUsed, same.mp isUsed]
  · simp [isUsed, same.not.mp isUsed]

/-- `__bitmap_and` and `__bitmap_andnot` in both runs. -/
theorem sameResult_combineAnyWord_iff
    {operation : Operation}
    {op : BitVec 64 → BitVec 64 → BitVec 64}
    {onBits : Bool → Bool → Bool}
    (bitwise : Bitwise op onBits)
    (isProgram :
      operation.program bits =
        truthValue (combineAnyWord dst bitmap1 bitmap2 bits op))
    (areInputs : operation.inputs = [bitmap1, bitmap2])
    (isOutput : operation.outputs = [dst])
    (placed : operation.Placed bits one)
    (otherPlaced : operation.Placed bits other)
    (same :
      ∀ bitmap ∈ operation.inputs, ∀ index < bits,
        one.longs.bit bitmap index = other.longs.bit bitmap index) :
    operation.SameResult bits one other ↔
      UnusedDontMatter onBits bitmap1 bitmap2 bits one other := by
  have ensured
      {memory : CMemory}
      (isPlaced : operation.Placed bits memory) :
      (operation.program bits).Ensures memory fun value after =>
        Becomes memory dst bits
            (combinedBits onBits memory.longs bitmap1 bitmap2) after ∧
          ∃ result,
            value = .truth result ∧
              (result = true ↔
                AnySet onBits bitmap1 bitmap2 0 bits memory ∨
                  AnySet onBits bitmap1 bitmap2 bits
                    (bitsToLongs bits * 64) memory) := by
    obtain ⟨inputs, outputs, apart⟩ := isPlaced
    rw [areInputs] at inputs apart
    rw [isOutput] at outputs apart
    simp only [List.forall_mem_cons, List.not_mem_nil, false_implies,
      implies_true, and_true] at inputs outputs apart
    rw [isProgram, truthValue, ensures_bind]
    refine (ensures_combineAnyWord bitwise outputs inputs.1 inputs.2
      apart.1 apart.2).weaken ?_
    intro result after isResult
    rw [ensures_pure]
    exact ⟨isResult.1, result, rfl, isResult.2.trans anySet_split⟩
  rw [areInputs] at same
  simp only [List.forall_mem_cons, List.not_mem_nil, false_implies,
    implies_true, and_true] at same
  obtain ⟨same1, same2⟩ := same
  have sameUsed :
      AnySet onBits bitmap1 bitmap2 0 bits one ↔
        AnySet onBits bitmap1 bitmap2 0 bits other := by
    refine exists_congr fun index => and_congr_right fun _ =>
      and_congr_right fun used => ?_
    rw [combinedBits_congr same1 same2 index used]
  have ensuredOne := ensured placed
  have ensuredOther := ensured otherPlaced
  rw [UnusedDontMatter, ← or_iff_or_of_iff sameUsed]
  constructor
  · intro twin
    obtain ⟨value, after, otherAfter, isResult, otherIsResult, -⟩ :=
      twin.both ensuredOne ensuredOther
    obtain ⟨-, result, rfl, isTrue⟩ := isResult
    obtain ⟨-, otherResult, isSame, otherIsTrue⟩ := otherIsResult
    obtain rfl := Value.truth.inj isSame
    exact isTrue.symm.trans otherIsTrue
  · intro holds
    refine .of_ensures ensuredOne ensuredOther ?_
    intro value after otherValue otherAfter isResult otherIsResult
    obtain ⟨becomes, result, rfl, isTrue⟩ := isResult
    obtain ⟨otherBecomes, otherResult, rfl, otherIsTrue⟩ := otherIsResult
    have sameTruth : result = true ↔ otherResult = true :=
      isTrue.trans (holds.trans otherIsTrue.symm)
    rw [isOutput, List.forall_mem_singleton]
    exact ⟨congrArg Value.truth (Bool.eq_iff_iff.mpr sameTruth),
      becomes.same otherBecomes (combinedBits_congr same1 same2)⟩

/-- The operations on words other than `__bitmap_and` and `__bitmap_andnot`. -/
theorem WordOperation.sameResult
    {operation : WordOperation}
    (allowed : (Operation.word operation).Allowed bits)
    (placed : (Operation.word operation).Placed bits one)
    (otherPlaced : (Operation.word operation).Placed bits other)
    (same :
      ∀ bitmap ∈ operation.inputs, ∀ index < bits,
        one.longs.bit bitmap index = other.longs.bit bitmap index)
    (notAnd :
      ∀ dst bitmap1 bitmap2, operation ≠ .and dst bitmap1 bitmap2)
    (notAndnot :
      ∀ dst bitmap1 bitmap2, operation ≠ .andnot dst bitmap1 bitmap2) :
    (Operation.word operation).SameResult bits one other := by
  obtain ⟨inputs, outputs, apart⟩ := placed
  obtain ⟨otherInputs, otherOutputs, -⟩ := otherPlaced
  cases operation <;>
    simp only [Operation.inputs, Operation.outputs, WordOperation.inputs,
      WordOperation.outputs, List.forall_mem_cons, List.not_mem_nil,
      false_implies, implies_true, and_true]
      at inputs outputs apart otherInputs otherOutputs same
  case empty bitmap =>
    refine twin_truthValue (ensures_bitmapEmpty inputs)
      (ensures_bitmapEmpty otherInputs) ?_
      (by simp [Operation.outputs, WordOperation.outputs])
    exact forall₂_congr fun index used => by rw [same index used]
  case full bitmap =>
    refine twin_truthValue (ensures_bitmapFull inputs)
      (ensures_bitmapFull otherInputs) ?_
      (by simp [Operation.outputs, WordOperation.outputs])
    exact forall₂_congr fun index used => by rw [same index used]
  case equal bitmap1 bitmap2 =>
    refine twin_truthValue (ensures_bitmapEqual inputs.1 inputs.2)
      (ensures_bitmapEqual otherInputs.1 otherInputs.2) ?_
      (by simp [Operation.outputs, WordOperation.outputs])
    exact forall₂_congr fun index used => by
      rw [same.1 index used, same.2 index used]
  case intersects bitmap1 bitmap2 =>
    refine twin_truthValue (ensures_bitmapIntersects inputs.1 inputs.2)
      (ensures_bitmapIntersects otherInputs.1 otherInputs.2) ?_
      (by simp [Operation.outputs, WordOperation.outputs])
    refine exists_congr fun index => and_congr_right fun used => ?_
    rw [same.1 index used, same.2 index used]
  case subset bitmap1 bitmap2 =>
    refine twin_truthValue (ensures_bitmapSubset inputs.1 inputs.2)
      (ensures_bitmapSubset otherInputs.1 otherInputs.2) ?_
      (by simp [Operation.outputs, WordOperation.outputs])
    exact forall₂_congr fun index used => by
      rw [same.1 index used, same.2 index used]
  case weight bitmap =>
    refine .bind (.of_ensures (ensures_bitmapWeight inputs)
      (ensures_bitmapWeight otherInputs) ?_)
    intro w after otherW otherAfter isWeight otherWeight
    refine ⟨?_, twin_pure.mpr
      (by simp [Operation.outputs, WordOperation.outputs])⟩
    rw [isWeight.2, otherWeight.2, weightOf_congr same]
  case complement dst src =>
    refine twin_noValue_becomes
      (ensures_bitmapComplement outputs inputs apart)
      (ensures_bitmapComplement otherOutputs otherInputs apart) ?_
    intro index used
    rw [same index used]
  case shiftLeft dst src shift =>
    have fits := shift_div_le allowed
    refine twin_noValue_becomes
      (becomes_bitmapShiftLeft outputs inputs apart fits)
      (becomes_bitmapShiftLeft otherOutputs otherInputs apart fits) ?_
    intro index used
    rw [shiftedLeft, shiftedLeft, same _ (by omega)]
  case shiftRight dst src shift =>
    have fits := shift_div_le allowed
    refine twin_noValue_becomes
      (ensures_bitmapShiftRight outputs inputs apart fits)
      (ensures_bitmapShiftRight otherOutputs otherInputs apart fits) ?_
    intro index used
    rw [shiftedRight, shiftedRight]
    by_cases reached : index + shift < bits
    · rw [same _ reached]
    · simp [reached]
  case or dst bitmap1 bitmap2 =>
    exact twin_noValue_becomes
      (ensures_combineWords bitwise_or outputs inputs.1 inputs.2 apart.1
        apart.2)
      (ensures_combineWords bitwise_or otherOutputs otherInputs.1
        otherInputs.2 apart.1 apart.2)
      (combinedBits_congr same.1 same.2)
  case xor dst bitmap1 bitmap2 =>
    exact twin_noValue_becomes
      (ensures_combineWords bitwise_xor outputs inputs.1 inputs.2 apart.1
        apart.2)
      (ensures_combineWords bitwise_xor otherOutputs otherInputs.1
        otherInputs.2 apart.1 apart.2)
      (combinedBits_congr same.1 same.2)
  case and dst bitmap1 bitmap2 =>
    exact absurd rfl (notAnd dst bitmap1 bitmap2)
  case andnot dst bitmap1 bitmap2 =>
    exact absurd rfl (notAndnot dst bitmap1 bitmap2)

/-- The operations on single bits have the same result in both runs. -/
theorem sameResult_of_zeroed
    {operation : Operation}
    {program : Program CMemory Unit}
    (isProgram : operation.program bits = noValue program)
    (isOutput : operation.outputs = [dst])
    (twin :
      program.Twin one other fun _ =>
        Agree bits (dst :: operation.inputs)) :
    operation.SameResult bits one other := by
  rw [Operation.SameResult, isProgram, isOutput]
  refine twin_noValue (twin.weaken ?_)
  intro _ after otherAfter agree
  rw [List.forall_mem_singleton]
  exact (agree dst (by simp)).2.2

/-- The operations on single bits do nothing in place. -/
theorem sameResult_inPlace
    {operation : Operation}
    (isProgram : operation.program bits = noValue (pure ()))
    (isOutput : operation.outputs = [dst])
    (isInput : dst ∈ operation.inputs)
    (same :
      ∀ bitmap ∈ operation.inputs, ∀ index < bits,
        one.longs.bit bitmap index = other.longs.bit bitmap index) :
    operation.SameResult bits one other := by
  rw [Operation.SameResult, isProgram, isOutput]
  refine twin_noValue (twin_pure.mpr ?_)
  rw [List.forall_mem_singleton]
  exact same dst isInput

/--
The unused bits of the arguments do not affect an operation, if and only if it
is not `__bitmap_and` or `__bitmap_andnot`, or the unused bits do not matter for
the combined bitmap.
-/
theorem Operation.sameResult_iff
    {operation : Operation}
    (positive : 1 ≤ bits)
    (allowed : operation.Allowed bits)
    (placed : operation.Placed bits one)
    (otherPlaced : operation.Placed bits other)
    (same :
      ∀ bitmap ∈ operation.inputs, ∀ index < bits,
        one.longs.bit bitmap index = other.longs.bit bitmap index) :
    operation.SameResult bits one other ↔
      operation.IgnoresUnused bits one other := by
  have agree : Agree bits operation.inputs one other := by
    intro bitmap isMember
    exact ⟨placed.inputs bitmap isMember,
      otherPlaced.inputs bitmap isMember, same bitmap isMember⟩
  have zeroed
      {dst : Int}
      (isOutput : dst ∈ operation.outputs) :=
    agree.bitmapZero (placed.outputs dst isOutput)
      (otherPlaced.outputs dst isOutput)
  have steady
      (dst : Int) :
      Steady bits dst (dst :: operation.inputs)
        (Agree bits (dst :: operation.inputs)) :=
    steady_agree (by simp)
  cases operation with
  | word operation =>
      cases operation with
      | and dst bitmap1 bitmap2 =>
          exact sameResult_combineAnyWord_iff bitwise_and rfl rfl rfl
            placed otherPlaced same
      | andnot dst bitmap1 bitmap2 =>
          exact sameResult_combineAnyWord_iff bitwise_andnot rfl rfl rfl
            placed otherPlaced same
      | _ =>
          exact iff_of_true
            (WordOperation.sameResult allowed placed otherPlaced same
              (by simp) (by simp))
            trivial
  | remap dst src old new =>
      refine iff_of_true ?_ trivial
      by_cases inPlace : dst = src
      · subst inPlace
        exact sameResult_inPlace
          (by rw [program, bitmapRemap, if_pos rfl]) rfl (by simp [inputs])
          same
      · refine sameResult_of_zeroed rfl rfl ?_
        exact (steady dst).bitmapRemap positive (by simp [inputs])
          (by simp [inputs]) (by simp [inputs]) inPlace
          (zeroed (by simp [outputs]))
  | bitremap oldbit old new =>
      refine iff_of_true (.bind ((agree.bitmapBitremap positive
        (by simp [inputs]) (by simp [inputs])).weaken ?_)) trivial
      intro newbit after otherAfter _
      rw [twin_pure]
      simp [outputs]
  | onto dst orig relmap =>
      refine iff_of_true ?_ trivial
      by_cases inPlace : dst = orig
      · subst inPlace
        exact sameResult_inPlace
          (by rw [program, bitmapOnto, if_pos rfl]) rfl (by simp [inputs])
          same
      · refine sameResult_of_zeroed rfl rfl ?_
        exact (steady dst).bitmapOnto (by simp [inputs])
          (by simp [inputs]) inPlace (zeroed (by simp [outputs]))
  | fold dst orig sz =>
      refine iff_of_true ?_ trivial
      by_cases inPlace : dst = orig
      · subst inPlace
        exact sameResult_inPlace
          (by rw [program, bitmapFold, if_pos rfl]) rfl (by simp [inputs])
          same
      · refine sameResult_of_zeroed rfl rfl ?_
        exact (steady dst).bitmapFold (by simp [inputs]) inPlace
          (zeroed (by simp [outputs]))

end Runs

section Samples

/-- A memory with a result and two bitmaps of one word. -/
def threeWords (bitmap1 bitmap2 : BitVec 64) : CMemory where
  longs := .ofList [0, bitmap1, bitmap2]
  chars := .ofList []

/-- The bitmaps of `threeWords` are arrays of one word. -/
theorem placed_threeWords
    (word1 word2 : BitVec 64) :
    (Operation.word (.and 0 1 2)).Placed 1 (threeWords word1 word2) := by
  have mapped :
      ∀ base < 3,
        (threeWords word1 word2).longs.Mapped (base : Nat)
          (bitsToLongs 1) := by
    intro base below
    have all :=
      (Region.mapped_ofList le_rfl :
        (Region.ofList [0, word1, word2]).Mapped 0 3)
    simpa [threeWords] using all.drop (by
      have isOne : bitsToLongs 1 = 1 := rfl
      omega : base + bitsToLongs 1 ≤ 3)
  refine ⟨?_, ?_, ?_⟩
  · simpa [Operation.inputs, WordOperation.inputs] using
      ⟨mapped 1 (by decide), mapped 2 (by decide)⟩
  · simpa [Operation.outputs, WordOperation.outputs] using
      mapped 0 (by decide)
  · simp [Operation.inputs, WordOperation.inputs, Operation.outputs,
      WordOperation.outputs, SameOrApart, bitsToLongs]

/-- The bitmaps have a used bit in common, so the unused bits do not matter. -/
theorem Operation.sameResult_of_sample :
    (Operation.word (.and 0 1 2)).SameResult 1 (threeWords 1 1)
      (threeWords 3 3) := by
  have allowed : (Operation.word (.and 0 1 2)).Allowed 1 := trivial
  refine (Operation.sameResult_iff le_rfl allowed (placed_threeWords _ _)
    (placed_threeWords _ _) ?_).mpr (.inl ⟨0, ?_⟩)
  · decide
  · decide

/--
The bitmaps have no used bit in common, but `__bitmap_and` returns true if they
have an unused bit in common.
-/
theorem Operation.not_sameResult_of_sample :
    ¬(Operation.word (.and 0 1 2)).SameResult 1 (threeWords 0 0)
      (threeWords 2 2) := by
  rw [sameResult_combineAnyWord_iff bitwise_and rfl rfl rfl
    (placed_threeWords _ _) (placed_threeWords _ _) (by decide)]
  intro dontMatter
  rcases dontMatter with isSet | same
  · obtain ⟨index, -, below, isSet⟩ := isSet
    obtain rfl : index = 0 := Nat.lt_one_iff.mp below
    exact absurd isSet (by decide)
  · obtain ⟨index, above, below, isSet⟩ := same.mpr ⟨1, by decide⟩
    have isZero :
        ∀ index < 64,
          combinedBits and (threeWords 0 0).longs 1 2 index = false := by
      decide
    rw [isZero index below] at isSet
    exact absurd isSet (by simp)

end Samples

end LibKern.Bitmap
