import LibKern.BitmapOnto
import LibKern.BitmapRuns
import LibKern.Clients

namespace LibKern.Bitmap

/-!
# Clients of bitmaps see finite sets

A client works on several bitmaps in distinct arrays.  It may use every
operation of the library on them, in any order, and choose each call by the
results of the earlier ones.  What the client sees is what it would see if the
bitmaps were finite sets of positions.  It does not see the truth values of
`bitmap_and` and `bitmap_andnot`, which depend on the unused bits.
-/

open Program

/-- The positions of a region. -/
def regionSet (pos order : Nat) : Finset Nat :=
  Finset.Ico pos (pos + 2 ^ order)

/-- An aligned region inside of the bitmap has no position of the set. -/
def FreeIn (nbits order : Nat) (set : Finset Nat) (pos : Nat) : Prop :=
  2 ^ order ∣ pos ∧ pos + 2 ^ order ≤ nbits ∧
    regionSet pos order ∩ set = ∅

instance (nbits order : Nat) (set : Finset Nat) (pos : Nat) :
    Decidable (FreeIn nbits order set pos) :=
  inferInstanceAs (Decidable (_ ∧ _ ∧ _))

/-- The first free region. -/
def firstFree (nbits order : Nat) (set : Finset Nat) : Option Nat :=
  (List.range nbits).find? fun pos => FreeIn nbits order set pos

/-- The least position of a set from an offset on, or the size. -/
def firstFrom (nbits offset : Nat) (set : Finset Nat) : Nat :=
  ((List.range nbits).find? fun index =>
    decide (offset ≤ index ∧ index ∈ set)).getD nbits

section Specification

variable {ι : Type}

/-- The set that an operation leaves in its result. -/
noncomputable def BitmapOp.newSet
    (nbits : Nat)
    (sets : ι → Finset Nat) : BitmapOp ι → Finset Nat
  | .zero _ => ∅
  | .fill _ => Finset.range nbits
  | .copy _ src => sets src
  | .and _ src1 src2 => sets src1 ∩ sets src2
  | .or _ src1 src2 => sets src1 ∪ sets src2
  | .xor _ src1 src2 => symmDiff (sets src1) (sets src2)
  | .andnot _ src1 src2 => sets src1 \ sets src2
  | .complement _ src => Finset.range nbits \ sets src
  | .shiftLeft _ src n =>
      ((sets src).image fun index => index + n).filter (· < nbits)
  | .shiftRight _ src n =>
      ((sets src).filter (n ≤ ·)).image fun index => index - n
  | .set map start nr => sets map ∪ Finset.Ico start (start + nr)
  | .clear map start nr => sets map \ Finset.Ico start (start + nr)
  | .remap _ src old new =>
      (sets src).image (Ranks.remap (sets old) (sets new))
  | .onto _ orig relmap => Ranks.onto (sets orig) (sets relmap)
  | .fold _ orig sz => (sets orig).image fun index => index % sz
  | .findFreeRegion bitmap order =>
      match firstFree nbits order (sets bitmap) with
      | some pos => sets bitmap ∪ regionSet pos order
      | none => sets bitmap
  | .allocateRegion bitmap pos order =>
      if regionSet pos order ∩ sets bitmap = ∅ then
        sets bitmap ∪ regionSet pos order
      else
        sets bitmap
  | .releaseRegion bitmap pos order =>
      sets bitmap \ regionSet pos order
  | .parse maskp _ _ | .parselist maskp _ => sets maskp

/-- The return value of an operation. -/
def BitmapOp.status
    (nbits : Nat)
    (sets : ι → Finset Nat) : BitmapOp ι → Int
  | .findFreeRegion bitmap order =>
      match firstFree nbits order (sets bitmap) with
      | some pos => pos
      | none => -enomem
  | .allocateRegion bitmap pos order =>
      if regionSet pos order ∩ sets bitmap = ∅ then 0 else -ebusy
  | _ => 0

/--
The calls that the library supports.  A shift is at most the number of bits,
ranges are inside of the bitmap, regions are aligned and inside, and the maps
are not written over their arguments.  The parsers read a text and are left
out.
-/
def BitmapOp.Supported (nbits : Nat) : BitmapOp ι → Prop
  | .shiftLeft _ _ n | .shiftRight _ _ n => n ≤ nbits
  | .set _ start nr | .clear _ start nr => start + nr ≤ nbits
  | .remap dst src old new => dst ≠ src ∧ dst ≠ old ∧ dst ≠ new
  | .onto dst orig relmap => dst ≠ orig ∧ dst ≠ relmap
  | .fold dst orig sz => dst ≠ orig ∧ 1 ≤ sz
  | .findFreeRegion _ order => nbits + 2 ^ order ≤ 2 ^ 31 - 1
  | .allocateRegion _ pos order | .releaseRegion _ pos order =>
      2 ^ order ∣ pos ∧ pos + 2 ^ order ≤ nbits
  | .parse _ _ _ | .parselist _ _ => False
  | _ => True

/-- The calls of a client: change one of the bitmaps, or ask about them. -/
inductive BitmapCall (ι : Type) where
  | change (operation : BitmapOp ι)
  | setBit (nr : Nat) (addr : ι)
  | clearBit (nr : Nat) (addr : ι)
  | testBit (nr : Nat) (addr : ι)
  | empty (src : ι)
  | full (src : ι)
  | equal (src1 src2 : ι)
  | intersects (src1 src2 : ι)
  | subset (src1 src2 : ι)
  | weight (src : ι)
  | findFirstBit (addr : ι)
  | findNextBit (addr : ι) (offset : Nat)
  | findFirstZeroBit (addr : ι)
  | findNextZeroBit (addr : ι) (offset : Nat)
  | posToOrd (buf : ι) (pos : Int)
  | ordToPos (buf : ι) (ord : Nat)
  | bitremap (oldbit : Nat) (old new : ι)

/-- A truth value as a number. -/
def truth (condition : Prop) [Decidable condition] : Int :=
  if condition then 1 else 0

/-- A call that returns a truth value. -/
def asked (program : Program CMemory Bool) : Program CMemory Int := do
  let result ← program
  pure (truth (result = true))

/-- A call that returns a number. -/
def counted (program : Program CMemory Nat) : Program CMemory Int := do
  let result ← program
  pure result

/-- The code of a call when the number of bits is not constant. -/
def BitmapCall.program (base : ι → Int) (nbits : Nat) :
    BitmapCall ι → Program CMemory Int
  | .change operation => operation.program base nbits
  | .setBit nr addr => noStatus (Bitmap.setBit nr (base addr))
  | .clearBit nr addr => noStatus (Bitmap.clearBit nr (base addr))
  | .testBit nr addr => asked (Bitmap.testBit nr (base addr))
  | .empty src => asked (Inline.bitmapEmpty false (base src) nbits)
  | .full src => asked (Inline.bitmapFull false (base src) nbits)
  | .equal src1 src2 =>
      asked (Inline.bitmapEqual false (base src1) (base src2) nbits)
  | .intersects src1 src2 =>
      asked (Inline.bitmapIntersects false (base src1) (base src2) nbits)
  | .subset src1 src2 =>
      asked (Inline.bitmapSubset false (base src1) (base src2) nbits)
  | .weight src => counted (Inline.bitmapWeight false (base src) nbits)
  | .findFirstBit addr => counted (Bitmap.findFirstBit (base addr) nbits)
  | .findNextBit addr offset =>
      counted (Bitmap.findNextBit (base addr) nbits offset)
  | .findFirstZeroBit addr =>
      counted (Bitmap.findFirstZeroBit (base addr) nbits)
  | .findNextZeroBit addr offset =>
      counted (Bitmap.findNextZeroBit (base addr) nbits offset)
  | .posToOrd buf pos => bitmapPosToOrd (base buf) pos nbits
  | .ordToPos buf ord => counted (bitmapOrdToPos (base buf) ord nbits)
  | .bitremap oldbit old new =>
      bitmapBitremap oldbit (base old) (base new) nbits

/-- The calls that the library supports. -/
def BitmapCall.Supported (nbits : Nat) : BitmapCall ι → Prop
  | .change operation => operation.Supported nbits
  | .setBit nr _ | .clearBit nr _ | .testBit nr _ => nr < nbits
  | _ => True

variable [DecidableEq ι]

/-- The answer to a call, and the sets after it. -/
noncomputable def BitmapCall.specification
    (nbits : Nat) :
    BitmapCall ι → (ι → Finset Nat) → Int × (ι → Finset Nat)
  | .change operation, sets =>
      (operation.status nbits sets,
        Function.update sets operation.dst (operation.newSet nbits sets))
  | .setBit nr addr, sets =>
      (0, Function.update sets addr (insert nr (sets addr)))
  | .clearBit nr addr, sets =>
      (0, Function.update sets addr ((sets addr).erase nr))
  | .testBit nr addr, sets => (truth (nr ∈ sets addr), sets)
  | .empty src, sets => (truth (sets src = ∅), sets)
  | .full src, sets => (truth (sets src = Finset.range nbits), sets)
  | .equal src1 src2, sets => (truth (sets src1 = sets src2), sets)
  | .intersects src1 src2, sets =>
      (truth (sets src1 ∩ sets src2).Nonempty, sets)
  | .subset src1 src2, sets => (truth (sets src1 ⊆ sets src2), sets)
  | .weight src, sets => ((sets src).card, sets)
  | .findFirstBit addr, sets => (firstFrom nbits 0 (sets addr), sets)
  | .findNextBit addr offset, sets =>
      (firstFrom nbits offset (sets addr), sets)
  | .findFirstZeroBit addr, sets =>
      (firstFrom nbits 0 (Finset.range nbits \ sets addr), sets)
  | .findNextZeroBit addr offset, sets =>
      (firstFrom nbits offset (Finset.range nbits \ sets addr), sets)
  | .posToOrd buf pos, sets =>
      (if 0 ≤ pos ∧ pos.toNat ∈ sets buf then
        (Nat.count (· ∈ sets buf) pos.toNat : Int)
      else
        -1, sets)
  | .ordToPos buf ord, sets => (Nat.nth (· ∈ sets buf) ord, sets)
  | .bitremap oldbit old new, sets =>
      (Ranks.remap (sets old) (sets new) oldbit, sets)

end Specification

section Simulation

variable {ι : Type} [DecidableEq ι]
variable {base : ι → Int}
variable {nbits : Nat}
variable {memory : CMemory}
variable {sets : ι → Finset Nat}

/-- The arrays can be accessed, and their used bits are these sets. -/
structure Shows
    (base : ι → Int)
    (nbits : Nat)
    (memory : CMemory)
    (sets : ι → Finset Nat) : Prop where
  mapped :
    ∀ handle, memory.longs.Mapped (base handle) (bitsToLongs nbits)
  isView : ∀ handle, view memory.longs (base handle) nbits = sets handle

omit [DecidableEq ι] in
/-- The positions of a set are the used bits that are set. -/
theorem Shows.mem_iff
    (shows : Shows base nbits memory sets)
    {handle : ι}
    {index : Nat} :
    index ∈ sets handle ↔
      index < nbits ∧ memory.longs.bit (base handle) index = true := by
  rw [← shows.isView, mem_view]

omit [DecidableEq ι] in
theorem DistinctArrays.noOverlap
    (distinct : DistinctArrays base nbits)
    {one other : ι}
    (different : one ≠ other) :
    NoOverlap (base one) (base other) (bitsToLongs nbits) :=
  distinct one other different

/-- A bitmap was written, and the others are what they were. -/
theorem Shows.update
    (shows : Shows base nbits memory sets)
    (distinct : DistinctArrays base nbits)
    {dst : ι}
    {value : Nat → Bool}
    {set : Finset Nat}
    {after : CMemory}
    (becomes : Becomes memory (base dst) nbits value after)
    (isSet :
      ∀ index, index ∈ set ↔ index < nbits ∧ value index = true) :
    Shows base nbits after (Function.update sets dst set) where
  mapped handle :=
    becomes.outside.mapped becomes.mapped (shows.mapped handle)
  isView handle := by
    by_cases isResult : handle = dst
    · subst isResult
      ext index
      rw [Function.update_self, mem_view, isSet]
      refine and_congr_right fun below => ?_
      have enough := le_bitsToLongs_mul nbits
      rw [becomes.isValue index (by omega)]
    · rw [Function.update_of_ne isResult, ← shows.isView]
      apply SameWords.view_eq
      intro index below
      have apart := distinct handle dst isResult
      apply becomes.outside
      omega

/-- A call without a return value. -/
theorem Shows.ensures_noStatus
    (shows : Shows base nbits memory sets)
    (distinct : DistinctArrays base nbits)
    {α : Type}
    {program : Program CMemory α}
    {dst : ι}
    {value : Nat → Bool}
    {set : Finset Nat}
    (ensured :
      program.Ensures memory fun _ =>
        Becomes memory (base dst) nbits value)
    (isSet :
      ∀ index, index ∈ set ↔ index < nbits ∧ value index = true) :
    (noStatus program).Ensures memory fun status after =>
      status = 0 ∧
        Shows base nbits after (Function.update sets dst set) := by
  rw [noStatus, ensures_bind]
  refine ensured.weaken ?_
  intro _ after becomes
  exact ensures_pure.mpr ⟨rfl, shows.update distinct becomes isSet⟩

/-- A bitmap whose bits were marked one by one. -/
theorem Shows.ensures_marks
    (shows : Shows base nbits memory sets)
    (distinct : DistinctArrays base nbits)
    {α : Type}
    {program : Program CMemory α}
    {dst : ι}
    {set : Finset Nat}
    (ensured :
      program.Ensures memory fun _ => Marks memory (base dst) nbits set)
    (bounded : ∀ index ∈ set, index < nbits) :
    (noStatus program).Ensures memory fun status after =>
      status = 0 ∧
        Shows base nbits after (Function.update sets dst set) := by
  refine shows.ensures_noStatus distinct ensured ?_
  intro index
  rw [decide_eq_true_iff]
  exact ⟨fun member => ⟨bounded index member, member⟩, fun used => used.2⟩

omit [DecidableEq ι] in
/-- The positions of the sets are used bits. -/
theorem Shows.lt
    (shows : Shows base nbits memory sets)
    {handle : ι}
    {index : Nat}
    (member : index ∈ sets handle) :
    index < nbits :=
  (shows.mem_iff.mp member).1

omit [DecidableEq ι] in
/-- A region is free if the set has no position in it. -/
theorem Shows.free_iff
    (shows : Shows base nbits memory sets)
    {handle : ι}
    {pos order : Nat}
    (inside : pos + 2 ^ order ≤ nbits) :
    Free memory (base handle) pos order ↔
      regionSet pos order ∩ sets handle = ∅ := by
  rw [Finset.eq_empty_iff_forall_notMem]
  refine forall_congr' fun index => ?_
  rw [Finset.mem_inter, regionSet, Finset.mem_Ico, shows.mem_iff,
    InRegion]
  grind

omit [DecidableEq ι] in
/-- A position is the first free region. -/
theorem Shows.firstFree_eq_some
    (shows : Shows base nbits memory sets)
    {handle : ι}
    {pos order : Nat}
    (region : FreeRegion memory (base handle) nbits order pos)
    (busy :
      ∀ earlier < pos, 2 ^ order ∣ earlier →
        ¬Free memory (base handle) earlier order) :
    firstFree nbits order (sets handle) = some pos := by
  obtain ⟨aligned, inside, free⟩ := region
  have positive := Nat.two_pow_pos order
  rw [firstFree, List.find?_range_eq_some, decide_eq_true_iff]
  refine ⟨⟨aligned, inside, (shows.free_iff inside).mp free⟩,
    List.mem_range.mpr (by omega), ?_⟩
  intro earlier before
  rw [Bool.not_eq_true', decide_eq_false_iff_not]
  intro isFree
  obtain ⟨divides, fits, noPosition⟩ := isFree
  exact busy earlier before divides ((shows.free_iff fits).mpr noPosition)

omit [DecidableEq ι] in
/-- There is no free region. -/
theorem Shows.firstFree_eq_none
    (shows : Shows base nbits memory sets)
    {handle : ι}
    {order : Nat}
    (busy :
      ∀ pos, 2 ^ order ∣ pos → pos + 2 ^ order ≤ nbits →
        ¬Free memory (base handle) pos order) :
    firstFree nbits order (sets handle) = none := by
  rw [firstFree, List.find?_range_eq_none]
  intro pos _
  rw [Bool.not_eq_true', decide_eq_false_iff_not]
  intro isFree
  obtain ⟨aligned, inside, noPosition⟩ := isFree
  exact busy pos aligned inside ((shows.free_iff inside).mpr noPosition)

/-- The bitmap after a region was allocated. -/
theorem Shows.allocated
    (shows : Shows base nbits memory sets)
    (distinct : DistinctArrays base nbits)
    {handle : ι}
    {pos order : Nat}
    {after : CMemory}
    (inside : pos + 2 ^ order ≤ nbits)
    (becomes :
      Becomes memory (base handle) nbits
        (Bitmap.allocated memory (base handle) pos order) after) :
    Shows base nbits after
      (Function.update sets handle
        (sets handle ∪ regionSet pos order)) := by
  refine shows.update distinct becomes ?_
  intro index
  rw [Finset.mem_union, regionSet, Finset.mem_Ico, shows.mem_iff,
    Bitmap.allocated]
  grind [InRegion]

/-- `bitmap_find_free_region` takes the first free region of the set. -/
theorem Shows.ensures_findFreeRegion
    (shows : Shows base nbits memory sets)
    (distinct : DistinctArrays base nbits)
    (handle : ι)
    {order : Nat}
    (bound : nbits + 2 ^ order ≤ 2 ^ 31 - 1) :
    ((BitmapOp.findFreeRegion handle order).program base nbits).Ensures
      memory fun status after =>
        status = (BitmapOp.findFreeRegion handle order).status nbits sets ∧
          Shows base nbits after
            (Function.update sets handle
              ((BitmapOp.findFreeRegion handle order).newSet nbits
                sets)) := by
  refine (ensures_bitmapFindFreeRegion (shows.mapped handle)
    (by omega)).weaken ?_
  intro status after found
  rcases found with
    ⟨pos, rfl, aligned, inside, free, busy, becomes⟩ |
    ⟨rfl, rfl, busy⟩
  · have isFirst :=
      shows.firstFree_eq_some ⟨aligned, inside, free⟩ busy
    simp only [BitmapOp.status, BitmapOp.newSet, isFirst]
    exact ⟨trivial, shows.allocated distinct inside becomes⟩
  · have isNone := shows.firstFree_eq_none busy
    simp only [BitmapOp.status, BitmapOp.newSet, isNone,
      Function.update_eq_self]
    exact ⟨trivial, shows⟩

/-- `bitmap_allocate_region` takes a free region of the set. -/
theorem Shows.ensures_allocateRegion
    (shows : Shows base nbits memory sets)
    (distinct : DistinctArrays base nbits)
    (handle : ι)
    {pos order : Nat}
    (aligned : 2 ^ order ∣ pos)
    (inside : pos + 2 ^ order ≤ nbits) :
    ((BitmapOp.allocateRegion handle pos order).program base
      nbits).Ensures memory fun status after =>
        status =
            (BitmapOp.allocateRegion handle pos order).status nbits
              sets ∧
          Shows base nbits after
            (Function.update sets handle
              ((BitmapOp.allocateRegion handle pos order).newSet nbits
                sets)) := by
  refine (ensures_bitmapAllocateRegion (shows.mapped handle) aligned
    inside).weaken ?_
  intro status after outcome
  simp only [BitmapOp.status, BitmapOp.newSet]
  rcases outcome with ⟨rfl, free, becomes⟩ | ⟨rfl, busy, rfl⟩
  · have isFree := (shows.free_iff inside).mp free
    rw [if_pos isFree, if_pos isFree]
    exact ⟨rfl, shows.allocated distinct inside becomes⟩
  · have isBusy := (shows.free_iff inside).not.mp busy
    rw [if_neg isBusy, if_neg isBusy, Function.update_eq_self]
    exact ⟨rfl, shows⟩

/-- Every operation does to the sets what it says. -/
theorem Shows.ensures_change
    (shows : Shows base nbits memory sets)
    (distinct : DistinctArrays base nbits)
    (positive : 1 ≤ nbits)
    {operation : BitmapOp ι}
    (supported : operation.Supported nbits) :
    (operation.program base nbits).Ensures memory fun status after =>
      status = operation.status nbits sets ∧
        Shows base nbits after
          (Function.update sets operation.dst
            (operation.newSet nbits sets)) := by
  have mapped := shows.mapped
  have apart := distinct.sameOrApart
  cases operation with
  | zero dst =>
      refine shows.ensures_noStatus distinct
        (becomes_bitmapZero (mapped dst)) ?_
      simp [BitmapOp.newSet]
  | fill dst =>
      refine shows.ensures_noStatus distinct
        (ensures_bitmapFill positive (mapped dst)) ?_
      simp [BitmapOp.newSet]
  | copy dst src =>
      refine shows.ensures_noStatus distinct
        (ensures_bitmapCopy (mapped dst) (mapped src) (apart dst src)) ?_
      exact fun index => shows.mem_iff
  | and dst src1 src2 =>
      have combined :=
        ensures_combineAnyWord bitwise_and (mapped dst) (mapped src1)
          (mapped src2) (apart dst src1) (apart dst src2)
      refine shows.ensures_noStatus distinct
        (combined.weaken fun _ _ result => result.1) ?_
      intro index
      rw [BitmapOp.newSet, Finset.mem_inter, shows.mem_iff,
        shows.mem_iff, combinedBits]
      grind
  | or dst src1 src2 =>
      refine shows.ensures_noStatus distinct
        (ensures_combineWords bitwise_or (mapped dst) (mapped src1)
          (mapped src2) (apart dst src1) (apart dst src2)) ?_
      intro index
      rw [BitmapOp.newSet, Finset.mem_union, shows.mem_iff,
        shows.mem_iff, combinedBits]
      grind
  | xor dst src1 src2 =>
      refine shows.ensures_noStatus distinct
        (ensures_combineWords bitwise_xor (mapped dst) (mapped src1)
          (mapped src2) (apart dst src1) (apart dst src2)) ?_
      intro index
      rw [BitmapOp.newSet, Finset.mem_symmDiff, shows.mem_iff,
        shows.mem_iff, combinedBits]
      grind
  | andnot dst src1 src2 =>
      have combined :=
        ensures_combineAnyWord bitwise_andnot (mapped dst) (mapped src1)
          (mapped src2) (apart dst src1) (apart dst src2)
      refine shows.ensures_noStatus distinct
        (combined.weaken fun _ _ result => result.1) ?_
      intro index
      rw [BitmapOp.newSet, Finset.mem_sdiff, shows.mem_iff,
        shows.mem_iff, combinedBits]
      grind
  | complement dst src =>
      refine shows.ensures_noStatus distinct
        (ensures_bitmapComplement (mapped dst) (mapped src)
          (apart dst src)) ?_
      intro index
      rw [BitmapOp.newSet, Finset.mem_sdiff, Finset.mem_range,
        shows.mem_iff]
      grind
  | shiftLeft dst src n =>
      refine shows.ensures_noStatus distinct
        (becomes_bitmapShiftLeft (mapped dst) (mapped src)
          (apart dst src) (shift_div_le supported)) ?_
      intro index
      rw [BitmapOp.newSet, Finset.mem_filter, Finset.mem_image,
        shiftedLeft]
      simp only [shows.mem_iff]
      grind
  | shiftRight dst src n =>
      refine shows.ensures_noStatus distinct
        (ensures_bitmapShiftRight (mapped dst) (mapped src)
          (apart dst src) (shift_div_le supported)) ?_
      intro index
      rw [BitmapOp.newSet, Finset.mem_image, shiftedRight]
      simp only [Finset.mem_filter, shows.mem_iff]
      grind
  | set map start nr =>
      have inside : start + nr ≤ nbits := supported
      refine shows.ensures_noStatus distinct
        (ensures_changeSpan bitwise_or (by simp) (mapped map) inside) ?_
      intro index
      rw [BitmapOp.newSet, Finset.mem_union, Finset.mem_Ico,
        shows.mem_iff, spanBits]
      grind
  | clear map start nr =>
      refine shows.ensures_noStatus distinct
        (ensures_changeSpan bitwise_andnot (by simp) (mapped map)
          supported) ?_
      intro index
      rw [BitmapOp.newSet, Finset.mem_sdiff, Finset.mem_Ico,
        shows.mem_iff, spanBits]
      grind
  | remap dst src old new =>
      obtain ⟨notSrc, notOld, notNew⟩ := supported
      have remapped :=
        ensures_bitmapRemap (mapped dst) (mapped src) (mapped old)
          (mapped new) positive (distinct.noOverlap notSrc)
          (distinct.noOverlap notOld) (distinct.noOverlap notNew)
      simp only [movedTo, shows.isView] at remapped
      refine shows.ensures_marks distinct remapped ?_
      intro index member
      obtain ⟨oldbit, isSet, rfl⟩ := Finset.mem_image.mp member
      exact Ranks.remap_lt (fun _ => shows.lt) (shows.lt isSet)
  | onto dst orig relmap =>
      obtain ⟨notOrig, notRelmap⟩ := supported
      have translated :=
        ensures_bitmapOnto positive (mapped dst) (mapped orig)
          (mapped relmap) (distinct.noOverlap notOrig)
          (distinct.noOverlap notRelmap)
      simp only [ontoBits, shows.isView] at translated
      refine shows.ensures_marks distinct translated ?_
      intro index member
      exact shows.lt (Ranks.mem_onto.mp member).1
  | fold dst orig sz =>
      have folded :=
        @ensures_bitmapFold _ _ _ _ sz positive (mapped dst) (mapped orig)
          (distinct.noOverlap supported.1)
      simp only [shows.isView] at folded
      refine shows.ensures_marks distinct folded ?_
      intro index member
      obtain ⟨oldbit, isSet, rfl⟩ := Finset.mem_image.mp member
      exact (Nat.mod_le _ _).trans_lt (shows.lt isSet)
  | findFreeRegion bitmap order =>
      exact shows.ensures_findFreeRegion distinct bitmap supported
  | allocateRegion bitmap pos order =>
      exact shows.ensures_allocateRegion distinct bitmap supported.1
        supported.2
  | releaseRegion bitmap pos order =>
      obtain ⟨aligned, inside⟩ := supported
      refine shows.ensures_noStatus distinct
        (ensures_bitmapReleaseRegion (mapped bitmap) aligned inside) ?_
      intro index
      rw [BitmapOp.newSet, Finset.mem_sdiff, regionSet, Finset.mem_Ico,
        shows.mem_iff, released]
      grind [InRegion]
  | parse maskp buf buflen =>
      exact supported.elim
  | parselist maskp bp =>
      exact supported.elim

/-- `set_bit` and `clear_bit` change one bit. -/
theorem becomes_oneBit
    {change : BitVec 64 → BitVec 64 → BitVec 64}
    {onBits : Bool → Bool → Bool}
    {addr : Int}
    {nr : Nat}
    (bitwise : Bitwise change onBits)
    (neutral : ∀ bit, onBits bit false = bit)
    (mapped : memory.longs.Mapped addr (bitsToLongs nbits))
    (below : nr < nbits) :
    Ensures (do
      let word ← loadLong (addr + (nr / 64 : Nat))
      storeLong (addr + (nr / 64 : Nat))
        (change word ((1 : BitVec 64) <<< (nr % 64)))) memory fun _ =>
          Becomes memory addr nbits fun index =>
            onBits (memory.longs.bit addr index) (decide (index = nr)) := by
  have inside : nr / 64 < bitsToLongs nbits :=
    lt_bitsToLongs (by omega)
  obtain ⟨word, atWord⟩ := mapped (nr / 64) inside
  simp only [ensures_bind, ensures_loadLong, ensures_storeLong, atWord,
    Option.some.injEq, exists_eq_left', exists_eq', true_and]
  refine ⟨rfl, mapped.write _ _, .write inside _, ?_⟩
  intro index _
  by_cases sameWord : index / 64 = nr / 64
  · have isBit : (decide (index % 64 = nr % 64)) = decide (index = nr) :=
      decide_eq_decide.mpr (by omega)
    simp only [Region.bit, sameWord, Region.write_cell_same, atWord,
      Option.getD_some]
    rw [bitwise _ _ _ (by omega), getLsbD_singleBit (by omega), isBit]
  · have different :
        addr + (index / 64 : Nat) ≠ addr + (nr / 64 : Nat) := by
      omega
    rw [decide_eq_false (by omega), neutral, Region.bit, Region.bit,
      Region.write_cell_of_ne _ different]

/-- A scan returns the first position of a set. -/
theorem firstFrom_eq
    {offset result : Nat}
    {set : Finset Nat}
    (atMost : result ≤ nbits)
    (before : ∀ index, offset ≤ index → index < result → index ∉ set)
    (found : result < nbits → offset ≤ result ∧ result ∈ set) :
    result = firstFrom nbits offset set := by
  rw [firstFrom]
  by_cases inside : result < nbits
  · have isFirst :
        (List.range nbits).find? (fun index =>
          decide (offset ≤ index ∧ index ∈ set)) = some result := by
      rw [List.find?_range_eq_some, decide_eq_true_iff]
      refine ⟨found inside, List.mem_range.mpr inside, ?_⟩
      intro earlier isEarlier
      rw [Bool.not_eq_true', decide_eq_false_iff_not]
      exact fun passes => before earlier passes.1 isEarlier passes.2
    rw [isFirst, Option.getD_some]
  · have noneFound :
        (List.range nbits).find? (fun index =>
          decide (offset ≤ index ∧ index ∈ set)) = none := by
      rw [List.find?_range_eq_none]
      intro index below
      rw [Bool.not_eq_true', decide_eq_false_iff_not]
      exact fun passes => before index passes.1 (by omega) passes.2
    rw [noneFound, Option.getD_none]
    omega

omit [DecidableEq ι] in
/-- A scan for a set bit. -/
theorem Shows.firstSet_eq
    (shows : Shows base nbits memory sets)
    {handle : ι}
    {offset result : Nat}
    (first : FirstSet memory.longs (base handle) nbits offset result) :
    result = firstFrom nbits offset (sets handle) := by
  apply firstFrom_eq first.atMost
  · intro index above before member
    have isClear := first.clear index above before
    rw [(shows.mem_iff.mp member).2] at isClear
    exact Bool.noConfusion isClear
  · intro inside
    obtain ⟨above, isSet⟩ := first.found inside
    exact ⟨above, shows.mem_iff.mpr ⟨inside, isSet⟩⟩

omit [DecidableEq ι] in
/-- A scan for a clear bit. -/
theorem Shows.firstClear_eq
    (shows : Shows base nbits memory sets)
    {handle : ι}
    {offset result : Nat}
    (first : FirstClear memory.longs (base handle) nbits offset result) :
    result =
      firstFrom nbits offset (Finset.range nbits \ sets handle) := by
  apply firstFrom_eq first.atMost
  · intro index above before member
    rw [Finset.mem_sdiff, Finset.mem_range, shows.mem_iff] at member
    exact member.2 ⟨member.1, first.isSet index above before⟩
  · intro inside
    obtain ⟨above, isClear⟩ := first.found inside
    refine ⟨above, ?_⟩
    rw [Finset.mem_sdiff, Finset.mem_range, shows.mem_iff, isClear]
    simp [inside]

omit [DecidableEq ι] in
/-- A call that answers a question. -/
theorem Shows.ensures_asked
    (shows : Shows base nbits memory sets)
    {program : Program CMemory Bool}
    {condition : Prop}
    [Decidable condition]
    (ensured :
      program.Ensures memory fun result after =>
        after = memory ∧ (result = true ↔ condition)) :
    (asked program).Ensures memory fun answer after =>
      answer = truth condition ∧ Shows base nbits after sets := by
  rw [asked, ensures_bind]
  refine ensured.weaken ?_
  intro result after isResult
  obtain ⟨rfl, answers⟩ := isResult
  refine ensures_pure.mpr ⟨?_, shows⟩
  simp only [truth, answers]

omit [DecidableEq ι] in
/-- A call that counts or searches. -/
theorem Shows.ensures_counted
    (shows : Shows base nbits memory sets)
    {program : Program CMemory Nat}
    {value : Nat}
    (ensured :
      program.Ensures memory fun result after =>
        after = memory ∧ result = value) :
    (counted program).Ensures memory fun answer after =>
      answer = value ∧ Shows base nbits after sets := by
  rw [counted, ensures_bind]
  refine ensured.weaken ?_
  intro result after isResult
  obtain ⟨rfl, rfl⟩ := isResult
  exact ensures_pure.mpr ⟨rfl, shows⟩

/-- Every call answers and changes what the specification says. -/
theorem Shows.ensures_call
    (shows : Shows base nbits memory sets)
    (distinct : DistinctArrays base nbits)
    (positive : 1 ≤ nbits)
    {request : BitmapCall ι}
    (supported : request.Supported nbits) :
    (request.program base nbits).Ensures memory fun answer after =>
      answer = (request.specification nbits sets).1 ∧
        Shows base nbits after (request.specification nbits sets).2 := by
  have mapped := shows.mapped
  have isView := shows.isView
  cases request with
  | change operation =>
      exact shows.ensures_change distinct positive supported
  | setBit nr addr =>
      have below : nr < nbits := supported
      refine shows.ensures_noStatus distinct
        (becomes_oneBit bitwise_or (by simp) (mapped addr) below) ?_
      intro index
      rw [Finset.mem_insert, shows.mem_iff]
      grind
  | clearBit nr addr =>
      refine shows.ensures_noStatus distinct
        (becomes_oneBit bitwise_andnot (by simp) (mapped addr)
          supported) ?_
      intro index
      rw [Finset.mem_erase, shows.mem_iff]
      grind
  | testBit nr addr =>
      have below : nr < nbits := supported
      refine shows.ensures_asked ?_
      refine (ensures_testBit (mapped addr) below).weaken ?_
      intro result after tested
      obtain ⟨rfl, rfl⟩ := tested
      exact ⟨rfl, by rw [shows.mem_iff, and_iff_right below]⟩
  | empty src =>
      have decides := (decidesSets (mapped src) (mapped src)).empty
      rw [isView] at decides
      exact shows.ensures_asked decides
  | full src =>
      have decides := (decidesSets (mapped src) (mapped src)).full
      rw [isView] at decides
      exact shows.ensures_asked decides
  | equal src1 src2 =>
      have decides := (decidesSets (mapped src1) (mapped src2)).equal
      rw [isView, isView] at decides
      exact shows.ensures_asked decides
  | intersects src1 src2 =>
      have decides := (decidesSets (mapped src1) (mapped src2)).intersects
      rw [isView, isView] at decides
      exact shows.ensures_asked decides
  | subset src1 src2 =>
      have decides := (decidesSets (mapped src1) (mapped src2)).subset
      rw [isView, isView] at decides
      exact shows.ensures_asked decides
  | weight src =>
      have weighs := ensures_bitmapWeight (mapped src)
      rw [weightOf_eq_card, isView] at weighs
      exact shows.ensures_counted weighs
  | findFirstBit addr =>
      refine shows.ensures_counted
        ((ensures_findFirstBit (mapped addr)).weaken ?_)
      intro result after scanned
      obtain ⟨rfl, first⟩ := scanned
      exact ⟨rfl, shows.firstSet_eq first⟩
  | findNextBit addr offset =>
      refine shows.ensures_counted
        ((ensures_findNextBit (mapped addr)).weaken ?_)
      intro result after scanned
      obtain ⟨rfl, first⟩ := scanned
      exact ⟨rfl, shows.firstSet_eq first⟩
  | findFirstZeroBit addr =>
      refine shows.ensures_counted
        ((ensures_findFirstZeroBit (mapped addr)).weaken ?_)
      intro result after scanned
      obtain ⟨rfl, first⟩ := scanned
      exact ⟨rfl, shows.firstClear_eq first⟩
  | findNextZeroBit addr offset =>
      refine shows.ensures_counted
        ((ensures_findNextZeroBit (mapped addr)).weaken ?_)
      intro result after scanned
      obtain ⟨rfl, first⟩ := scanned
      exact ⟨rfl, shows.firstClear_eq first⟩
  | posToOrd buf pos =>
      have ranked := @ensures_bitmapPosToOrd _ _ _ pos (mapped buf)
      simp only [isView] at ranked
      refine ranked.weaken ?_
      intro ord after isOrd
      obtain ⟨rfl, rfl⟩ := isOrd
      exact ⟨rfl, shows⟩
  | ordToPos buf ord =>
      have selected := @ensures_bitmapOrdToPos _ _ _ ord (mapped buf)
      simp only [isView] at selected
      exact shows.ensures_counted selected
  | bitremap oldbit old new =>
      have moved := ensures_bitmapBitremap (mapped old) (mapped new) oldbit
      simp only [movedTo, isView] at moved
      refine moved.weaken ?_
      intro result after isResult
      obtain ⟨rfl, rfl⟩ := isResult
      exact ⟨rfl, shows⟩

end Simulation

end LibKern.Bitmap
