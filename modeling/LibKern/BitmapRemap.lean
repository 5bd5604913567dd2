import LibKern.BitmapMarks

namespace LibKern.Bitmap

/-!
# Remapping bitmaps

`bitmap_pos_to_ord` counts the set bits below a position, `bitmap_ord_to_pos`
finds the position with an ordinal, and `bitmap_remap` moves all set bits of a
bitmap along the map of `bitmap_bitremap`.  Between bitmaps of the same weight
the map has an inverse.
-/

open Program

section Ordinals

variable {memory : CMemory}
variable {buf : Int}
variable {bits : Nat}

/-- The used bits are below the number of bits. -/
theorem lt_of_mem_view
    {longs : Region (BitVec 64)} :
    ∀ index ∈ view longs buf bits, index < bits := by
  intro index member
  exact (mem_view.mp member).1

/-- The ordinal of the first set bit from an offset on. -/
theorem FirstSet.count_eq
    {longs : Region (BitVec 64)}
    {offset found : Nat}
    (first : FirstSet longs buf bits offset found)
    (above : offset ≤ found) :
    Nat.count (· ∈ view longs buf bits) found =
      Nat.count (· ∈ view longs buf bits) offset := by
  apply Ranks.count_eq_of_gap above
  intro index reached below member
  rw [mem_view, first.clear index reached below] at member
  exact absurd member.2 (by simp)

/-- A bit that is found is one of the used bits. -/
theorem FirstSet.mem_view
    {longs : Region (BitVec 64)}
    {offset found : Nat}
    (first : FirstSet longs buf bits offset found)
    (below : found < bits) :
    found ∈ view longs buf bits :=
  Bitmap.mem_view.mpr ⟨below, (first.found below).2⟩

/-- The first set bit is not behind a position that is set. -/
theorem FirstSet.le_of_mem
    {longs : Region (BitVec 64)}
    {offset found position : Nat}
    (first : FirstSet longs buf bits offset found)
    (above : offset ≤ position)
    (member : position ∈ view longs buf bits) :
    found ≤ position := by
  by_contra isBehind
  have isSet := (Bitmap.mem_view.mp member).2
  rw [first.clear position above (by omega)] at isSet
  exact absurd isSet (by simp)

/-- The next set bit is behind the offset. -/
theorem FirstSet.offset_le
    {longs : Region (BitVec 64)}
    {offset found : Nat}
    (first : FirstSet longs buf bits offset found)
    (atMost : offset ≤ bits) :
    offset ≤ found := by
  by_contra isBefore
  have reached := first.found (by omega)
  omega

/-- The loop of `bitmap_pos_to_ord` counts the set bits below a position. -/
theorem ensures_countBelow
    {i pos : Nat}
    (mapped : memory.longs.Mapped buf (bitsToLongs bits))
    (isSet : pos ∈ view memory.longs buf bits)
    (reached : i ∈ view memory.longs buf bits)
    (atMost : i ≤ pos) :
    (loop (countBelow buf pos bits)
      (i, Nat.count (· ∈ view memory.longs buf bits) i)).Ensures memory
        fun ord after =>
          after = memory ∧
            ord = Nat.count (· ∈ view memory.longs buf bits) pos := by
  induction remaining : pos - i using Nat.strong_induction_on
    generalizing i with
  | h remaining inductionHypothesis =>
      rw [ensures_loop, countBelow]
      split
      · rename_i below
        rw [ensures_bind]
        refine (ensures_findNextBit mapped).weaken ?_
        intro next after scanned
        obtain ⟨rfl, first⟩ := scanned
        have notBehind := first.le_of_mem (by omega) isSet
        have inside := lt_of_mem_view pos isSet
        have further := first.offset_le (by omega)
        have nextOrd :
            Nat.count (· ∈ view after.longs buf bits) i + 1 =
              Nat.count (· ∈ view after.longs buf bits) next := by
          rw [first.count_eq further, Nat.count_succ, if_pos reached]
        rw [nextOrd]
        exact ensures_pure.mpr
          (inductionHypothesis (pos - next) (by omega)
            (first.mem_view (by omega)) notBehind rfl)
      · rename_i notBelow
        obtain rfl : i = pos := by
          omega
        exact ensures_pure.mpr ⟨rfl, rfl⟩

/--
`bitmap_pos_to_ord` returns the number of set bits below a set bit, and -1 for
any other position.
-/
theorem ensures_bitmapPosToOrd
    {pos : Int}
    (mapped : memory.longs.Mapped buf (bitsToLongs bits)) :
    (bitmapPosToOrd buf pos bits).Ensures memory fun ord after =>
      after = memory ∧
        ord =
          if 0 ≤ pos ∧ pos.toNat ∈ view memory.longs buf bits then
            (Nat.count (· ∈ view memory.longs buf bits) pos.toNat : Int)
          else
            -1 := by
  rw [bitmapPosToOrd]
  split
  · rename_i isOutside
    refine ensures_pure.mpr ⟨rfl, ?_⟩
    rw [if_neg]
    intro isSet
    have inside := lt_of_mem_view _ isSet.2
    omega
  · rename_i isInside
    rw [ensures_bind]
    refine (ensures_testBit mapped (by omega)).weaken ?_
    intro isSet after tested
    obtain ⟨rfl, rfl⟩ := tested
    split
    · rename_i isClear
      refine ensures_pure.mpr ⟨rfl, ?_⟩
      rw [if_neg]
      intro member
      exact isClear (mem_view.mp member.2).2
    · rename_i isSet
      have member : pos.toNat ∈ view after.longs buf bits :=
        mem_view.mpr ⟨by omega, not_not.mp isSet⟩
      have isNat : pos = (pos.toNat : Int) := by
        omega
      rw [ensures_bind]
      refine (ensures_findFirstBit mapped).weaken ?_
      intro first after scanned
      obtain ⟨rfl, isFirst⟩ := scanned
      have notBehind := isFirst.le_of_mem (Nat.zero_le _) member
      have noneBefore :
          Nat.count (· ∈ view after.longs buf bits) first = 0 := by
        rw [isFirst.count_eq (Nat.zero_le _), Nat.count_zero]
      have counted :=
        ensures_countBelow mapped member (isFirst.mem_view (by omega))
          notBehind
      rw [noneBefore, ← isNat] at counted
      rw [ensures_bind]
      refine counted.weaken ?_
      intro ord after isOrd
      obtain ⟨rfl, rfl⟩ := isOrd
      refine ensures_pure.mpr ⟨rfl, ?_⟩
      rw [if_pos ⟨by omega, member⟩]

/-- The loop of `bitmap_ord_to_pos` skips as many set bits as it should. -/
theorem ensures_skipSetBits
    {i : Nat}
    (mapped : memory.longs.Mapped buf (bitsToLongs bits))
    (ord : Nat)
    (atMost : i ≤ bits)
    (reached : i < bits → i ∈ view memory.longs buf bits) :
    (loop (skipSetBits buf bits) (i, ord)).Ensures memory
      fun found after =>
        after = memory ∧
          (if found.1 < bits ∧ found.2 = 0 then found.1 else 0) =
            Nat.nth (· ∈ view memory.longs buf bits)
              (Nat.count (· ∈ view memory.longs buf bits) i + ord) := by
  induction ord generalizing i with
  | zero =>
      rw [ensures_loop, skipSetBits, if_neg (by simp), ensures_pure]
      refine ⟨rfl, ?_⟩
      dsimp only
      split
      · rename_i isFound
        exact (Nat.nth_count (reached isFound.1)).symm
      · rename_i notFound
        obtain rfl : i = bits := by
          omega
        rw [Ranks.count_eq_card lt_of_mem_view,
          Ranks.nth_of_card_le (Nat.le_add_right _ _)]
  | succ ord inductionHypothesis =>
      rw [ensures_loop, skipSetBits]
      split
      · rename_i goesOn
        rw [ensures_bind]
        refine (ensures_findNextBit mapped).weaken ?_
        intro next after scanned
        obtain ⟨rfl, first⟩ := scanned
        have further := first.offset_le (by omega)
        have sameOrd :
            Nat.count (· ∈ view after.longs buf bits) i + (ord + 1) =
              Nat.count (· ∈ view after.longs buf bits) next + ord := by
          rw [first.count_eq further, Nat.count_succ,
            if_pos (reached goesOn.1)]
          omega
        rw [sameOrd]
        exact ensures_pure.mpr
          (inductionHypothesis first.atMost first.mem_view)
      · rename_i atEnd
        obtain rfl : i = bits := by
          omega
        refine ensures_pure.mpr ⟨rfl, ?_⟩
        rw [if_neg (by simp), Ranks.count_eq_card lt_of_mem_view,
          Ranks.nth_of_card_le (Nat.le_add_right _ _)]

/-- There are at most as many set bits as bits. -/
theorem card_view_le
    (longs : Region (BitVec 64))
    (buf : Int)
    (bits : Nat) :
    (view longs buf bits).card ≤ bits := by
  calc
    (view longs buf bits).card ≤ (Finset.range bits).card :=
      Finset.card_le_card (Finset.filter_subset _ _)
    _ = bits := Finset.card_range bits

/--
`bitmap_ord_to_pos` returns the position of the set bit with an ordinal, and 0 if
there is none.
-/
theorem ensures_bitmapOrdToPos
    {ord : Nat}
    (mapped : memory.longs.Mapped buf (bitsToLongs bits)) :
    (bitmapOrdToPos buf ord bits).Ensures memory fun pos after =>
      after = memory ∧
        pos = Nat.nth (· ∈ view memory.longs buf bits) ord := by
  rw [bitmapOrdToPos]
  split
  · rw [ensures_bind]
    refine (ensures_findFirstBit mapped).weaken ?_
    intro first after scanned
    obtain ⟨rfl, isFirst⟩ := scanned
    have noneBefore :
        Nat.count (· ∈ view after.longs buf bits) first = 0 := by
      rw [isFirst.count_eq (Nat.zero_le _), Nat.count_zero]
    have skipped :=
      ensures_skipSetBits mapped ord isFirst.atMost isFirst.mem_view
    rw [noneBefore, Nat.zero_add] at skipped
    rw [ensures_bind]
    refine skipped.weaken ?_
    intro found after isFound
    obtain ⟨rfl, isPos⟩ := isFound
    exact ensures_pure.mpr ⟨rfl, isPos⟩
  · rename_i tooLarge
    refine ensures_pure.mpr ⟨rfl, ?_⟩
    rw [Ranks.nth_of_card_le]
    have bound := card_view_le memory.longs buf bits
    omega

end Ordinals

section Remap

variable {memory state : CMemory}
variable {dst src old new : Int}
variable {bits : Nat}

/-- Where `bitmap_bitremap` moves a position. -/
noncomputable def movedTo
    (memory : CMemory)
    (old new : Int)
    (bits : Nat) :
    Nat → Nat :=
  Ranks.remap (view memory.longs old bits) (view memory.longs new bits)

/-- The branches of `bitmap_remap` and `bitmap_bitremap` for one position. -/
theorem movedTo_eq
    (memory : CMemory)
    (old new : Int)
    (bits oldbit : Nat) :
    movedTo memory old new bits oldbit =
      if oldbit ∉ view memory.longs old bits ∨
          weightOf memory.longs new bits = 0 then
        oldbit
      else
        Nat.nth (· ∈ view memory.longs new bits)
          (Nat.count (· ∈ view memory.longs old bits) oldbit %
            weightOf memory.longs new bits) := by
  rw [movedTo, Ranks.remap, weightOf_eq_card]
  by_cases isSet : oldbit ∈ view memory.longs old bits
  · by_cases isEmpty : view memory.longs new bits = ∅
    · rw [if_neg (by simp [isEmpty]), if_pos (by simp [isEmpty])]
    · rw [if_pos ⟨isSet, isEmpty⟩, if_neg (by simp [isSet, isEmpty])]
  · rw [if_neg (by simp [isSet]), if_pos (.inl isSet)]

/-- A position moves to one of the positions below the number of bits. -/
theorem movedTo_lt
    {oldbit : Nat}
    (below : oldbit < bits) :
    movedTo memory old new bits oldbit < bits :=
  Ranks.remap_lt lt_of_mem_view below

/--
The lookup that `bitmap_remap` and `bitmap_bitremap` make for one position, with
what they do with its result.
-/
theorem ensures_lookup
    {α : Type}
    {oldbit : Nat}
    {found : Int → Program CMemory α}
    {stays : Program CMemory α}
    {moves : Nat → Program CMemory α}
    {post : α → CMemory → Prop}
    (mappedOld : state.longs.Mapped old (bitsToLongs bits))
    (mappedNew : state.longs.Mapped new (bitsToLongs bits))
    (isFound :
      ∀ n,
        found n =
          if n < 0 ∨ weightOf state.longs new bits = 0 then
            stays
          else
            bitmapOrdToPos new
              (n.toNat % weightOf state.longs new bits) bits >>= moves)
    (whenStays :
      movedTo state old new bits oldbit = oldbit →
      stays.Ensures state post)
    (whenMoves :
      (moves (movedTo state old new bits oldbit)).Ensures state post) :
    (bitmapPosToOrd old oldbit bits >>= found).Ensures state post := by
  have moved := movedTo_eq state old new bits oldbit
  rw [ensures_bind]
  refine (ensures_bitmapPosToOrd mappedOld).weaken ?_
  intro n after isOrd
  obtain ⟨rfl, isOrd⟩ := isOrd
  rw [Int.toNat_natCast] at isOrd
  by_cases isSet : oldbit ∈ view after.longs old bits
  · rw [if_pos ⟨by omega, isSet⟩] at isOrd
    subst isOrd
    rw [isFound]
    by_cases noWeight : weightOf after.longs new bits = 0
    · rw [if_pos (.inr noWeight)] at moved ⊢
      exact whenStays moved
    · rw [if_neg (by simp [isSet, noWeight])] at moved
      rw [if_neg (by omega), ensures_bind]
      refine (ensures_bitmapOrdToPos mappedNew).weaken ?_
      intro pos between isPos
      obtain ⟨rfl, rfl⟩ := isPos
      rw [Int.toNat_natCast, ← moved]
      exact whenMoves
  · rw [if_neg (by simp [isSet])] at isOrd
    subst isOrd
    rw [isFound, if_pos (.inl (by omega))]
    rw [if_pos (.inl isSet)] at moved
    exact whenStays moved

/-- `bitmap_bitremap` moves one position. -/
theorem ensures_bitmapBitremap
    (mappedOld : memory.longs.Mapped old (bitsToLongs bits))
    (mappedNew : memory.longs.Mapped new (bitsToLongs bits))
    (oldbit : Nat) :
    (bitmapBitremap oldbit old new bits).Ensures memory
      fun result after =>
        after = memory ∧ result = movedTo memory old new bits oldbit := by
  rw [bitmapBitremap, ensures_bind]
  refine (ensures_bitmapWeight mappedNew).weaken ?_
  intro w after isWeight
  obtain ⟨rfl, rfl⟩ := isWeight
  refine ensures_lookup mappedOld mappedNew (fun _ => rfl) ?_ ?_
  · intro stays
    refine ensures_pure.mpr ⟨rfl, ?_⟩
    rw [stays]
  · exact ensures_pure.mpr ⟨rfl, rfl⟩

/-- Another bitmap has the same map of positions. -/
theorem movedTo_congr
    (sameOld : SameWords memory old (bitsToLongs bits) state)
    (sameNew : SameWords memory new (bitsToLongs bits) state) :
    movedTo state old new bits = movedTo memory old new bits := by
  rw [movedTo, movedTo, sameOld.view_eq, sameNew.view_eq]

/-- `bitmap_remap` moves all set bits of the source. -/
theorem ensures_bitmapRemap
    (mapped : memory.longs.Mapped dst (bitsToLongs bits))
    (mappedSrc : memory.longs.Mapped src (bitsToLongs bits))
    (mappedOld : memory.longs.Mapped old (bitsToLongs bits))
    (mappedNew : memory.longs.Mapped new (bitsToLongs bits))
    (positive : 1 ≤ bits)
    (apartSrc : NoOverlap dst src (bitsToLongs bits))
    (apartOld : NoOverlap dst old (bitsToLongs bits))
    (apartNew : NoOverlap dst new (bitsToLongs bits)) :
    (bitmapRemap dst src old new bits).Ensures memory fun _ =>
      Marks memory dst bits
        ((view memory.longs src bits).image
          (movedTo memory old new bits)) := by
  rw [bitmapRemap, if_neg (apartSrc.ne positive), ensures_bind]
  refine (ensures_bitmapZero_marks mapped).weaken ?_
  intro _ zeroed cleared
  rw [ensures_bind]
  refine (ensures_bitmapWeight
    (cleared.stays_mapped mappedNew)).weaken ?_
  intro w after isWeight
  obtain ⟨rfl, rfl⟩ := isWeight
  refine ensures_forEachSetBit_image _ mappedSrc apartSrc cleared ?_
  intro bit below set state marks
  have sameNew := marks.sameWords apartNew
  have sameMap := movedTo_congr (marks.sameWords apartOld) sameNew
  have sameWeight :
      weightOf after.longs new bits = weightOf state.longs new bits := by
    rw [weightOf_eq_card, weightOf_eq_card, sameNew.view_eq,
      (cleared.sameWords apartNew).view_eq]
  rw [sameWeight]
  refine ensures_lookup (marks.stays_mapped mappedOld)
    (marks.stays_mapped mappedNew) (fun _ => rfl) ?_ ?_
  · intro stays
    rw [sameMap] at stays
    rw [stays]
    exact marks.ensures_setBit below
  · rw [sameMap]
    exact marks.ensures_setBit (movedTo_lt below)

/-- The positions that are moved are below the number of bits. -/
theorem image_movedTo_lt :
    ∀ index ∈
        (view memory.longs src bits).image (movedTo memory old new bits),
      index < bits := by
  intro index isImage
  obtain ⟨oldbit, member, rfl⟩ := Finset.mem_image.mp isImage
  exact movedTo_lt (lt_of_mem_view oldbit member)

/--
`bitmap_bitremap` follows the map of positions, `bitmap_remap` sets exactly the
bits that set bits of the source are mapped to, and remapping a subset of the old
bitmap there and back restores it.
-/
structure RemapsBits
    (memory : CMemory)
    (dst src old new : Int)
    (bits : Nat) : Prop where
  position :
    ∀ oldbit < bits,
      (bitmapBitremap oldbit old new bits).Ensures memory
        fun result after =>
          after = memory ∧
            result =
              if oldbit ∉ view memory.longs old bits ∨
                  view memory.longs new bits = ∅ then
                oldbit
              else
                Nat.nth (· ∈ view memory.longs new bits)
                  (Nat.count (· ∈ view memory.longs old bits) oldbit %
                    (view memory.longs new bits).card)
  image :
    (bitmapRemap dst src old new bits).Ensures memory fun _ after =>
      memory.longs.SameOutside after.longs dst (bitsToLongs bits) ∧
        ∀ newbit < bits,
          after.longs.bit dst newbit = true ↔
            ∃ oldbit < bits,
              memory.longs.bit src oldbit = true ∧
                (bitmapBitremap oldbit old new bits).Returns memory
                  newbit memory
  thereAndBack :
    ∀ back,
      memory.longs.Mapped back (bitsToLongs bits) →
      NoOverlap back dst (bitsToLongs bits) →
      NoOverlap back old (bitsToLongs bits) →
      NoOverlap back new (bitsToLongs bits) →
      (view memory.longs old bits).card =
        (view memory.longs new bits).card →
      view memory.longs src bits ⊆ view memory.longs old bits →
      Ensures (do
        bitmapRemap dst src old new bits
        let w ← bitmapWeight dst bits
        bitmapRemap back dst new old bits
        pure w) memory fun w after =>
          w = (view memory.longs src bits).card ∧
            view after.longs back bits = view memory.longs src bits

/-- `bitmap_remap` is the image of a map of positions that can be inverted. -/
theorem remap_is_invertible_image
    (positive : 1 ≤ bits)
    (mapped : memory.longs.Mapped dst (bitsToLongs bits))
    (mappedSrc : memory.longs.Mapped src (bitsToLongs bits))
    (mappedOld : memory.longs.Mapped old (bitsToLongs bits))
    (mappedNew : memory.longs.Mapped new (bitsToLongs bits))
    (apartSrc : NoOverlap dst src (bitsToLongs bits))
    (apartOld : NoOverlap dst old (bitsToLongs bits))
    (apartNew : NoOverlap dst new (bitsToLongs bits)) :
    RemapsBits memory dst src old new bits where
  position := by
    intro oldbit below
    refine (ensures_bitmapBitremap mappedOld mappedNew oldbit).weaken ?_
    intro result after isResult
    refine ⟨isResult.1, ?_⟩
    rw [isResult.2, movedTo_eq, weightOf_eq_card]
    simp only [Finset.card_eq_zero]
  image := by
    refine (ensures_bitmapRemap mapped mappedSrc mappedOld mappedNew
      positive apartSrc apartOld apartNew).weaken ?_
    intro _ after marks
    refine ⟨marks.outside, ?_⟩
    intro newbit below
    have enough := le_bitsToLongs_mul bits
    rw [marks.isValue newbit (by omega), decide_eq_true_iff,
      Finset.mem_image]
    constructor
    · intro isImage
      obtain ⟨oldbit, member, rfl⟩ := isImage
      obtain ⟨inside, isSet⟩ := mem_view.mp member
      refine ⟨oldbit, inside, isSet, ?_⟩
      obtain ⟨result, after, returned, rfl, rfl⟩ :=
        ensures_bitmapBitremap mappedOld mappedNew oldbit
      exact returned
    · intro isImage
      obtain ⟨oldbit, inside, isSet, returned⟩ := isImage
      refine ⟨oldbit, mem_view.mpr ⟨inside, isSet⟩, ?_⟩
      have isResult :=
        (ensures_bitmapBitremap mappedOld mappedNew
          oldbit).of_returns returned
      exact Int.natCast_inj.mp isResult.2.symm
  thereAndBack := by
    intro back mappedBack apartDst backOld backNew sameSize within
    rw [ensures_bind]
    refine (ensures_bitmapRemap mapped mappedSrc mappedOld mappedNew
      positive apartSrc apartOld apartNew).weaken ?_
    intro _ between marks
    have isMoved := marks.view_eq image_movedTo_lt
    rw [ensures_bind]
    refine (ensures_bitmapWeight marks.mapped).weaken ?_
    intro w after isWeight
    obtain ⟨rfl, rfl⟩ := isWeight
    rw [ensures_bind]
    refine (ensures_bitmapRemap (marks.stays_mapped mappedBack)
      marks.mapped (marks.stays_mapped mappedNew)
      (marks.stays_mapped mappedOld) positive apartDst backNew
      backOld).weaken ?_
    intro _ restored backMarks
    refine ensures_pure.mpr ⟨?_, ?_⟩
    · rw [weightOf_eq_card, isMoved]
      exact Ranks.card_image_remap sameSize within
    · rw [backMarks.view_eq image_movedTo_lt, isMoved,
        movedTo_congr (marks.sameWords apartNew)
          (marks.sameWords apartOld)]
      exact Ranks.image_remap_image sameSize within

end Remap

section Sample

/--
Bitmaps of one word each: a result, a source, an old and a new bitmap, and a
place to map the result back to.
-/
def remapSample : CMemory where
  longs := .ofList [0, 0x24, 0x2c, 0x92, 0]
  chars := .ofList []

/-- The bitmaps of `remapSample` can be remapped, there and back. -/
theorem remap_is_invertible_image_of_sample :
    RemapsBits remapSample 0 1 2 3 8 ∧
      Ensures (do
        bitmapRemap 0 1 2 3 8
        let w ← bitmapWeight 0 8
        bitmapRemap 4 0 3 2 8
        pure w) remapSample fun w after =>
          w = 2 ∧ view after.longs 4 8 = {2, 5} := by
  have all : remapSample.longs.Mapped 0 5 := Region.mapped_ofList le_rfl
  have mapped
      (base : Nat)
      (below : base + 1 ≤ 5) :
      remapSample.longs.Mapped base (bitsToLongs 8) := by
    simpa [bitsToLongs] using all.drop below
  have remaps : RemapsBits remapSample 0 1 2 3 8 :=
    remap_is_invertible_image (by decide) (mapped 0 (by decide))
      (mapped 1 (by decide)) (mapped 2 (by decide))
      (mapped 3 (by decide)) (.inl (by decide)) (.inl (by decide))
      (.inl (by decide))
  have isSrc : view remapSample.longs 1 8 = {2, 5} := by
    decide
  refine ⟨remaps, ?_⟩
  have restored :=
    remaps.thereAndBack 4 (mapped 4 (by decide)) (.inr (by decide))
      (.inr (by decide)) (.inr (by decide)) (by decide) (by decide)
  rw [isSrc] at restored
  exact restored

end Sample

end LibKern.Bitmap
