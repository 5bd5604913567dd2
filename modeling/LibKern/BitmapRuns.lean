import LibKern.BitmapUnused

namespace LibKern.Bitmap

/-!
# Runs over several bitmaps

The bitmaps are held in distinct arrays, and every bitmap is created by
`bitmap_zero` or `bitmap_fill` before it is used.
-/

open Program

/-- The operations on bitmaps that are named by handles. -/
inductive BitmapOp (ι : Type) where
  | zero (dst : ι)
  | fill (dst : ι)
  | copy (dst src : ι)
  | and (dst src1 src2 : ι)
  | or (dst src1 src2 : ι)
  | xor (dst src1 src2 : ι)
  | andnot (dst src1 src2 : ι)
  | complement (dst src : ι)
  | shiftLeft (dst src : ι) (n : Nat)
  | shiftRight (dst src : ι) (n : Nat)
  | set (map : ι) (start nr : Nat)
  | clear (map : ι) (start nr : Nat)
  | remap (dst src old new : ι)
  | onto (dst orig relmap : ι)
  | fold (dst orig : ι) (sz : Nat)
  | findFreeRegion (bitmap : ι) (order : Nat)
  | allocateRegion (bitmap : ι) (pos order : Nat)
  | releaseRegion (bitmap : ι) (pos order : Nat)
  | parse (maskp : ι) (buf : Int) (buflen : Nat)
  | parselist (maskp : ι) (bp : Int)

/--
A call whose return value is not looked at.  The truth values of `bitmap_and` and
`bitmap_andnot` are left out in this way, since they depend on unused bits.
-/
def noStatus {α : Type} (program : Program CMemory α) :
    Program CMemory Int := do
  let _ ← program
  pure 0

namespace BitmapOp

variable {ι : Type}

/-- The bitmap that an operation writes to. -/
def dst : BitmapOp ι → ι
  | .zero dst | .fill dst | .copy dst _ | .and dst _ _ | .or dst _ _
  | .xor dst _ _ | .andnot dst _ _ | .complement dst _
  | .shiftLeft dst _ _ | .shiftRight dst _ _ | .set dst _ _
  | .clear dst _ _ | .remap dst _ _ _ | .onto dst _ _ | .fold dst _ _
  | .findFreeRegion dst _ | .allocateRegion dst _ _
  | .releaseRegion dst _ _ | .parse dst _ _ | .parselist dst _ => dst

/-- The bitmaps that an operation reads. -/
def sources : BitmapOp ι → List ι
  | .copy _ src | .complement _ src | .shiftLeft _ src _
  | .shiftRight _ src _ | .fold _ src _ => [src]
  | .and _ src1 src2 | .or _ src1 src2 | .xor _ src1 src2
  | .andnot _ src1 src2 | .onto _ src1 src2 => [src1, src2]
  | .remap _ src old new => [src, old, new]
  | _ => []

/-- The operations that create a bitmap. -/
def Creates : BitmapOp ι → Prop
  | .zero _ | .fill _ => True
  | _ => False

/-- The code of an operation when the number of bits is not constant. -/
def program (base : ι → Int) (nbits : Nat) :
    BitmapOp ι → Program CMemory Int
  | .zero dst => noStatus (Inline.bitmapZero false (base dst) nbits)
  | .fill dst => noStatus (Inline.bitmapFill false (base dst) nbits)
  | .copy dst src =>
      noStatus (Inline.bitmapCopy false (base dst) (base src) nbits)
  | .and dst src1 src2 =>
      noStatus (Inline.bitmapAnd false (base dst) (base src1) (base src2)
        nbits)
  | .or dst src1 src2 =>
      noStatus (Inline.bitmapOr false (base dst) (base src1) (base src2)
        nbits)
  | .xor dst src1 src2 =>
      noStatus (Inline.bitmapXor false (base dst) (base src1) (base src2)
        nbits)
  | .andnot dst src1 src2 =>
      noStatus (Inline.bitmapAndnot false (base dst) (base src1)
        (base src2) nbits)
  | .complement dst src =>
      noStatus (Inline.bitmapComplement false (base dst) (base src) nbits)
  | .shiftLeft dst src n =>
      noStatus (Inline.bitmapShiftLeft false (base dst) (base src) n nbits)
  | .shiftRight dst src n =>
      noStatus
        (Inline.bitmapShiftRight false (base dst) (base src) n nbits)
  | .set map start nr => noStatus (bitmapSet (base map) start nr)
  | .clear map start nr => noStatus (bitmapClear (base map) start nr)
  | .remap dst src old new =>
      noStatus (bitmapRemap (base dst) (base src) (base old) (base new)
        nbits)
  | .onto dst orig relmap =>
      noStatus (bitmapOnto (base dst) (base orig) (base relmap) nbits)
  | .fold dst orig sz =>
      noStatus (bitmapFold (base dst) (base orig) sz nbits)
  | .findFreeRegion bitmap order =>
      bitmapFindFreeRegion (base bitmap) nbits order
  | .allocateRegion bitmap pos order =>
      bitmapAllocateRegion (base bitmap) pos order
  | .releaseRegion bitmap pos order =>
      noStatus (bitmapReleaseRegion (base bitmap) pos order)
  | .parse maskp buf buflen => bitmapParse (base maskp) nbits buf buflen
  | .parselist maskp bp => bitmapParselist (base maskp) nbits bp

/--
The calls that are allowed.  A shift is at most the number of bits, ranges and
regions are inside of the bitmap, and a parser has returned success.  A region
that `bitmap_find_free_region` returns is inside of the bitmap if the end of
every region it looks at is at most `INT_MAX`.
-/
def Allowed (nbits : Nat) (result : Int) : BitmapOp ι → Prop
  | .shiftLeft _ _ n | .shiftRight _ _ n => n ≤ nbits
  | .set _ start nr | .clear _ start nr => start + nr ≤ nbits
  | .fold _ _ sz => 1 ≤ sz
  | .findFreeRegion _ order =>
      nbits + 2 ^ order ≤ 2 ^ 31 - 1 ∨
        (0 ≤ result ∧ result + 2 ^ order ≤ nbits)
  | .allocateRegion _ pos order | .releaseRegion _ pos order =>
      pos + 2 ^ order ≤ nbits
  | .parse _ _ _ | .parselist _ _ => result = 0
  | _ => True

end BitmapOp

/-- Different bitmaps are in arrays that do not overlap. -/
def DistinctArrays
    {ι : Type}
    (base : ι → Int)
    (nbits : Nat) : Prop :=
  ∀ one other : ι, one ≠ other →
    base one + bitsToLongs nbits ≤ base other ∨
      base other + bitsToLongs nbits ≤ base one

/-- The states that are reached, with the bitmaps that have been created. -/
inductive BitmapsReach
    {ι : Type}
    (base : ι → Int)
    (nbits : Nat) : CMemory → Set ι → Prop where
  | start
      {memory : CMemory}
      (mapped :
        ∀ handle,
          memory.longs.Mapped (base handle) (bitsToLongs nbits)) :
      BitmapsReach base nbits memory ∅
  | operate
      {memory after : CMemory}
      {created : Set ι}
      {operation : BitmapOp ι}
      {result : Int}
      (reached : BitmapsReach base nbits memory created)
      (operands :
        operation.Creates ∨
          ∀ handle ∈ operation.dst :: operation.sources,
            handle ∈ created)
      (returned :
        (operation.program base nbits).Returns memory result after)
      (allowed : operation.Allowed nbits result) :
      BitmapsReach base nbits after (insert operation.dst created)
  | writeText
      {memory : CMemory}
      {created : Set ι}
      (reached : BitmapsReach base nbits memory created)
      (chars : Region (BitVec 8)) :
      BitmapsReach base nbits { memory with chars := chars } created

section Step

variable {ι : Type}
variable {base : ι → Int}
variable {nbits : Nat}
variable {memory : CMemory}

theorem tidy_noStatus
    {α : Type}
    {program : Program CMemory α}
    {dst : Int}
    {allowed : Prop}
    (tidy :
      allowed →
        program.Ensures memory fun _ => Tidy memory dst nbits) :
    (noStatus program).Permits memory fun _ after =>
      allowed → Tidy memory dst nbits after := by
  rw [noStatus, permits_bind]
  intro value after returned
  refine permits_pure.mpr fun isAllowed => ?_
  exact (tidy isAllowed).of_returns returned

/-- The bitmaps can be accessed, and the created ones have no unused bits. -/
structure AllTidy
    (base : ι → Int)
    (nbits : Nat)
    (memory : CMemory)
    (created : Set ι) : Prop where
  mapped :
    ∀ handle, memory.longs.Mapped (base handle) (bitsToLongs nbits)
  clear : ∀ handle ∈ created, UnusedClear memory (base handle) nbits

variable {created : Set ι}

/-- Two bitmaps are the same array, or do not overlap. -/
theorem DistinctArrays.sameOrApart
    (distinct : DistinctArrays base nbits)
    (one other : ι) :
    SameOrApart (base one) (base other) (bitsToLongs nbits) := by
  by_cases same : one = other
  · subst same
    exact .inl rfl
  · exact .inr (distinct one other same)

/-- Combining two bitmaps whose unused bits are zero. -/
theorem tidy_of_combined
    {onBits : Bool → Bool → Bool}
    {dst src1 src2 : Int}
    {after : CMemory}
    (neutral : onBits false false = false)
    (clear1 : UnusedClear memory src1 nbits)
    (clear2 : UnusedClear memory src2 nbits)
    (becomes :
      Becomes memory dst nbits
        (combinedBits onBits memory.longs src1 src2) after) :
    Tidy memory dst nbits after := by
  refine becomes.tidy fun index inside unused => ?_
  rw [combinedBits, clear1 index inside unused,
    clear2 index inside unused, neutral]

/-- Changing a range that is inside of the bitmap. -/
theorem tidy_changeSpan
    {change : BitVec 64 → BitVec 64 → BitVec 64}
    {onBits : Bool → Bool → Bool}
    {map : Int}
    {start nr : Nat}
    (bitwise : Bitwise change onBits)
    (neutral : ∀ bit, onBits bit false = bit)
    (mapped : memory.longs.Mapped map (bitsToLongs nbits))
    (clear : UnusedClear memory map nbits)
    (fits : start + nr ≤ nbits) :
    (changeSpan change map start nr).Ensures memory
      fun _ => Tidy memory map nbits := by
  refine (ensures_changeSpan bitwise neutral mapped fits).weaken ?_
  intro _ after becomes
  refine becomes.tidy fun index inside unused => ?_
  rw [spanBits, decide_eq_false (by omega), neutral,
    clear index inside unused]

/-- One operation changes its result only and leaves its unused bits zero. -/
theorem BitmapOp.tidy
    {operation : BitmapOp ι}
    (positive : 1 ≤ nbits)
    (distinct : DistinctArrays base nbits)
    (allTidy : AllTidy base nbits memory created)
    (operands :
      operation.Creates ∨
        ∀ handle ∈ operation.dst :: operation.sources,
          handle ∈ created) :
    (operation.program base nbits).Permits memory fun result after =>
      operation.Allowed nbits result →
        Tidy memory (base operation.dst) nbits after := by
  have mapped := allTidy.mapped
  have apart := distinct.sameOrApart
  have clear
      (isOperand : ¬operation.Creates)
      (handle : ι)
      (isMember : handle ∈ operation.dst :: operation.sources) :
      UnusedClear memory (base handle) nbits :=
    allTidy.clear handle
      (operands.resolve_left isOperand handle isMember)
  cases operation with
  | zero dst =>
      refine tidy_noStatus fun _ => ?_
      refine (becomes_bitmapZero (mapped dst)).weaken ?_
      intro _ after becomes
      exact becomes.tidy fun _ _ _ => rfl
  | fill dst =>
      refine tidy_noStatus fun _ => ?_
      refine (ensures_bitmapFill positive (mapped dst)).weaken ?_
      intro _ after becomes
      refine becomes.tidy fun index _ unused => ?_
      exact decide_eq_false (by omega)
  | copy dst src =>
      refine tidy_noStatus fun _ => ?_
      refine (ensures_bitmapCopy (mapped dst) (mapped src)
        (apart dst src)).weaken ?_
      intro _ after becomes
      exact becomes.tidy (clear id src (by simp [sources]))
  | and dst src1 src2 =>
      refine tidy_noStatus fun _ => ?_
      rw [Inline.bitmapAnd, if_neg (by simp [Inline.smallConstNbits])]
      refine (ensures_combineAnyWord bitwise_and (mapped dst)
        (mapped src1) (mapped src2) (apart dst src1)
        (apart dst src2)).weaken ?_
      intro _ after result
      exact tidy_of_combined rfl (clear id src1 (by simp [sources]))
        (clear id src2 (by simp [sources])) result.1
  | or dst src1 src2 =>
      refine tidy_noStatus fun _ => ?_
      rw [Inline.bitmapOr, if_neg (by simp [Inline.smallConstNbits])]
      refine (ensures_combineWords bitwise_or (mapped dst)
        (mapped src1) (mapped src2) (apart dst src1)
        (apart dst src2)).weaken ?_
      intro _ after becomes
      exact tidy_of_combined rfl (clear id src1 (by simp [sources]))
        (clear id src2 (by simp [sources])) becomes
  | xor dst src1 src2 =>
      refine tidy_noStatus fun _ => ?_
      rw [Inline.bitmapXor, if_neg (by simp [Inline.smallConstNbits])]
      refine (ensures_combineWords bitwise_xor (mapped dst)
        (mapped src1) (mapped src2) (apart dst src1)
        (apart dst src2)).weaken ?_
      intro _ after becomes
      exact tidy_of_combined rfl (clear id src1 (by simp [sources]))
        (clear id src2 (by simp [sources])) becomes
  | andnot dst src1 src2 =>
      refine tidy_noStatus fun _ => ?_
      rw [Inline.bitmapAndnot, if_neg (by simp [Inline.smallConstNbits])]
      refine (ensures_combineAnyWord bitwise_andnot (mapped dst)
        (mapped src1) (mapped src2) (apart dst src1)
        (apart dst src2)).weaken ?_
      intro _ after result
      exact tidy_of_combined rfl (clear id src1 (by simp [sources]))
        (clear id src2 (by simp [sources])) result.1
  | complement dst src =>
      refine tidy_noStatus fun _ => ?_
      rw [Inline.bitmapComplement,
        if_neg (by simp [Inline.smallConstNbits])]
      refine (ensures_bitmapComplement (mapped dst) (mapped src)
        (apart dst src)).weaken ?_
      intro _ after becomes
      refine becomes.tidy fun index _ unused => ?_
      rw [decide_eq_false (by omega), Bool.false_and]
  | shiftLeft dst src n =>
      refine tidy_noStatus fun atMost => ?_
      rw [Inline.bitmapShiftLeft,
        if_neg (by simp [Inline.smallConstNbits])]
      refine (becomes_bitmapShiftLeft (mapped dst) (mapped src)
        (apart dst src) (shift_div_le atMost)).weaken ?_
      intro _ after becomes
      refine becomes.tidy fun index _ unused => ?_
      rw [shiftedLeft, decide_eq_false (by omega), Bool.false_and]
  | shiftRight dst src n =>
      refine tidy_noStatus fun atMost => ?_
      rw [Inline.bitmapShiftRight,
        if_neg (by simp [Inline.smallConstNbits])]
      refine (ensures_bitmapShiftRight (mapped dst) (mapped src)
        (apart dst src) (shift_div_le atMost)).weaken ?_
      intro _ after becomes
      refine becomes.tidy fun index _ unused => ?_
      rw [shiftedRight, decide_eq_false (by omega), Bool.false_and]
  | set map start nr =>
      exact tidy_noStatus fun inside =>
        tidy_changeSpan bitwise_or (by simp) (mapped map)
          (clear id map (by simp [dst])) inside
  | clear map start nr =>
      exact tidy_noStatus fun inside =>
        tidy_changeSpan bitwise_andnot (by simp) (mapped map)
          (clear id map (by simp [dst])) inside
  | remap dst src old new =>
      exact tidy_noStatus fun _ =>
        tidy_bitmapRemap positive (mapped dst) (by simp [mapped])
          (clear id dst (by simp [BitmapOp.dst]))
  | onto dst orig relmap =>
      exact tidy_noStatus fun _ =>
        tidy_bitmapOnto (mapped dst) (by simp [mapped])
          (clear id dst (by simp [BitmapOp.dst]))
  | fold dst orig sz =>
      exact tidy_noStatus fun _ =>
        tidy_bitmapFold (mapped dst) (mapped orig)
          (clear id dst (by simp [BitmapOp.dst]))
  | findFreeRegion bitmap order =>
      have isClear := clear id bitmap (by simp [dst])
      intro result after returned allowed
      rcases allowed with bound | ⟨nonnegative, inside⟩
      · exact (tidy_bitmapFindFreeRegion (mapped bitmap) isClear
          (by omega)).of_returns returned
      · exact permits_bitmapFindFreeRegion (mapped bitmap) isClear
          result after returned nonnegative inside
  | allocateRegion bitmap pos order =>
      intro result after returned inside
      exact (tidy_bitmapAllocateRegion (mapped bitmap)
        (clear id bitmap (by simp [dst])) inside).of_returns returned
  | releaseRegion bitmap pos order =>
      exact tidy_noStatus fun inside =>
        tidy_bitmapReleaseRegion (mapped bitmap)
          (clear id bitmap (by simp [dst])) inside
  | parse maskp buf buflen =>
      exact permits_bitmapParse positive (mapped maskp)
  | parselist maskp bp =>
      refine (permits_bitmapParselist (mapped maskp)).weaken ?_
      intro status after isTidy _
      exact isTidy

/-- A change of one bitmap leaves the unused bits of the others. -/
theorem Tidy.clearOf
    {dst other : ι}
    {after : CMemory}
    (isTidy : Tidy memory (base dst) nbits after)
    (distinct : DistinctArrays base nbits)
    (different : other ≠ dst)
    (clear : UnusedClear memory (base other) nbits) :
    UnusedClear after (base other) nbits := by
  intro index inside unused
  have below : index / 64 < bitsToLongs nbits := by
    omega
  have outside := distinct other dst different
  rw [← clear index inside unused, Region.bit, Region.bit,
    isTidy.outside _ (by omega)]

/-- The invariant of the runs over several bitmaps. -/
theorem BitmapsReach.allTidy
    (positive : 1 ≤ nbits)
    (distinct : DistinctArrays base nbits)
    (reached : BitmapsReach base nbits memory created) :
    AllTidy base nbits memory created := by
  induction reached with
  | start mapped =>
      exact ⟨mapped, by simp⟩
  | @operate memory after created operation result reached operands
      returned allowed allTidy =>
      have isTidy :=
        BitmapOp.tidy positive distinct allTidy operands result after
          returned allowed
      refine ⟨fun handle => ?_, fun handle isMember => ?_⟩
      · exact isTidy.outside.mapped isTidy.mapped (allTidy.mapped handle)
      · by_cases isResult : handle = operation.dst
        · subst isResult
          exact isTidy.clear
        · exact isTidy.clearOf distinct isResult
            (allTidy.clear handle (isMember.resolve_left isResult))
  | writeText reached chars allTidy =>
      exact ⟨allTidy.mapped, allTidy.clear⟩

/--
The unused bits of all bitmaps that have been created are zero after any run.
-/
theorem BitmapsReach.unusedClear
    (positive : 1 ≤ nbits)
    (distinct : DistinctArrays base nbits)
    (reached : BitmapsReach base nbits memory created) :
    ∀ handle ∈ created, UnusedClear memory (base handle) nbits :=
  (reached.allTidy positive distinct).clear

/-- Two bitmaps in adjacent words. -/
def adjacentWords (handle : Fin 2) : Int :=
  handle.val

/-- A full bitmap of five bits is shifted. -/
theorem BitmapsReach.unusedClear_of_sample :
    ∃ memory,
      BitmapsReach adjacentWords 5 memory {0} ∧
        ∀ handle ∈ ({0} : Set (Fin 2)),
          UnusedClear memory (adjacentWords handle) 5 := by
  have distinct : DistinctArrays adjacentWords 5 := by
    rw [DistinctArrays]
    decide
  have started : BitmapsReach adjacentWords 5 hundredBits ∅ := by
    refine .start fun handle index below => ?_
    obtain rfl : index = 0 := Nat.lt_one_iff.mp below
    match handle with
    | 0 => exact ⟨0, by decide⟩
    | 1 => exact ⟨0, by decide⟩
  have executed :
      (((BitmapOp.fill (0 : Fin 2)).program adjacentWords 5).exec 10
        hundredBits).map
        (fun result =>
          (((BitmapOp.shiftLeft (0 : Fin 2) 0 3).program
            adjacentWords 5).exec 10 result.2).isSome) =
        some true := by
    decide +kernel
  obtain ⟨⟨status, between⟩, filled, isSome⟩ :=
    Option.map_eq_some_iff.mp executed
  obtain ⟨⟨second, memory⟩, shifted⟩ := Option.isSome_iff_exists.mp isSome
  have created :=
    @BitmapsReach.operate _ adjacentWords 5 _ _ _ (.fill 0) _ started
      (.inl trivial) ⟨10, filled⟩ trivial
  have reached :=
    @BitmapsReach.operate _ adjacentWords 5 _ _ _ (.shiftLeft 0 0 3) _
      created (.inr (by simp [BitmapOp.dst, BitmapOp.sources]))
      ⟨10, shifted⟩ (by decide : 3 ≤ 5)
  simp only [BitmapOp.dst, LawfulSingleton.insert_empty_eq,
    Set.insert_eq_of_mem (Set.mem_singleton (0 : Fin 2))] at reached
  exact ⟨memory, reached,
    BitmapsReach.unusedClear (by decide) distinct reached⟩

end Step

end LibKern.Bitmap
