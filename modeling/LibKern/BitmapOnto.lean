import LibKern.BitmapRemap

namespace LibKern.Bitmap

/-!
# Translating a bitmap relative to another

`bitmap_onto` walks over the set bits of a bitmap and keeps their ordinal in a
counter.  It has the same effect as the plain loop over all ordinals, which looks
up each position.  After `bitmap_fold` no set bit of the original is lost.
-/

open Program

/--
The plain loop over the ordinals of the set bits of `relmap`, for which
`bitmap_onto` is a more efficient equivalent.
-/
def bitmapOntoPlain
    (dst orig relmap : Int)
    (bits : Nat) :
    Program CMemory Unit := do
  bitmapZero dst bits
  let w ← bitmapWeight relmap bits
  countUp w fun m => do
    let n ← bitmapOrdToPos relmap m bits
    let isSet ← testBit m orig
    onlyIf (isSet = true) (setBit n dst)

section Onto

variable {memory state : CMemory}
variable {dst orig relmap tmp : Int}
variable {bits : Nat}

/-- The bits that `bitmap_onto` should set. -/
def ontoBits
    (memory : CMemory)
    (orig relmap : Int)
    (bits : Nat) : Finset Nat :=
  Ranks.onto (view memory.longs orig bits) (view memory.longs relmap bits)

/-- A position of the relative map whose ordinal is set in the original. -/
theorem mem_ontoBits
    {n : Nat}
    (isSet : n ∈ view memory.longs relmap bits) :
    n ∈ ontoBits memory orig relmap bits ↔
      Nat.count (· ∈ view memory.longs relmap bits) n ∈
        view memory.longs orig bits := by
  rw [ontoBits, Ranks.mem_onto, and_iff_right isSet]

/-- `set_bit` under a test of another bitmap. -/
theorem Marks.ensures_setBit_if
    {m n : Nat}
    {set : Finset Nat}
    (marks : Marks memory dst bits set state)
    (mappedOrig : memory.longs.Mapped orig (bitsToLongs bits))
    (apartOrig : NoOverlap dst orig (bitsToLongs bits))
    (inOrig : m < bits)
    (inDst : n < bits) :
    Ensures (do
      let isSet ← testBit m orig
      onlyIf (isSet = true) (setBit n dst)) state fun _ =>
        Marks memory dst bits
          (if m ∈ view memory.longs orig bits then insert n set
            else set) := by
  rw [ensures_bind]
  refine (ensures_testBit (marks.stays_mapped mappedOrig)
    inOrig).weaken ?_
  intro isSet after tested
  obtain ⟨rfl, rfl⟩ := tested
  have sameOrig := (marks.sameWords apartOrig).view_eq
  have isMember :
      m ∈ view memory.longs orig bits ↔
        after.longs.bit orig m = true := by
    rw [← sameOrig, mem_view, and_iff_right inOrig]
  rw [onlyIf]
  split
  · rename_i isSet
    rw [if_pos (isMember.mpr isSet)]
    exact marks.ensures_setBit inDst
  · rename_i isClear
    rw [if_neg fun member => isClear (isMember.mp member)]
    exact ensures_pure.mpr marks

/-- The loop of `bitmap_onto` up to a position. -/
def OntoBelow
    (memory : CMemory)
    (dst orig relmap : Int)
    (bits n m : Nat)
    (state : CMemory) : Prop :=
  m = Nat.count (· ∈ view memory.longs relmap bits) n ∧
    Marks memory dst bits
      ((ontoBits memory orig relmap bits).filter (· < n)) state

/-- A position that is not set in the relative map is skipped. -/
theorem OntoBelow.skip
    {n m : Nat}
    (holds : OntoBelow memory dst orig relmap bits n m state)
    (notMember : n ∉ view memory.longs relmap bits) :
    OntoBelow memory dst orig relmap bits (n + 1) m state := by
  obtain ⟨rfl, marks⟩ := holds
  have notMarked : n ∉ ontoBits memory orig relmap bits := by
    intro isOnto
    exact notMember (Ranks.mem_onto.mp isOnto).1
  rw [OntoBelow, Nat.count_succ, if_neg notMember,
    Ranks.filter_lt_succ_of_notMem notMarked]
  exact ⟨rfl, marks⟩

/-- The body of the loop of `bitmap_onto` at a set position. -/
theorem OntoBelow.step
    {n m : Nat}
    (holds : OntoBelow memory dst orig relmap bits n m state)
    (mappedOrig : memory.longs.Mapped orig (bitsToLongs bits))
    (apartOrig : NoOverlap dst orig (bitsToLongs bits))
    (member : n ∈ view memory.longs relmap bits) :
    Ensures (do
      let isSet ← testBit m orig
      onlyIf (isSet = true) (setBit n dst)
      pure (m + 1)) state
        (OntoBelow memory dst orig relmap bits (n + 1)) := by
  obtain ⟨rfl, marks⟩ := holds
  have below := lt_of_mem_view n member
  have inOrig :
      Nat.count (· ∈ view memory.longs relmap bits) n < bits :=
    lt_of_le_of_lt (Nat.count_le _) below
  have marked :=
    marks.ensures_setBit_if mappedOrig apartOrig inOrig below
  rw [ensures_bind] at marked ⊢
  refine marked.weaken ?_
  intro isSet after tested
  rw [ensures_bind]
  refine tested.weaken ?_
  intro _ written marks
  refine ensures_pure.mpr ⟨?_, ?_⟩
  · rw [Nat.count_succ, if_pos member]
  · split at marks
    · rename_i isSet
      rw [Ranks.filter_lt_succ_of_mem ((mem_ontoBits member).mpr isSet)]
      exact marks
    · rename_i isClear
      rw [Ranks.filter_lt_succ_of_notMem
        (isClear ∘ (mem_ontoBits member).mp)]
      exact marks

/-- The bits to be set are below the number of bits. -/
theorem ontoBits_lt :
    ∀ n ∈ ontoBits memory orig relmap bits, n < bits := by
  intro n isOnto
  exact lt_of_mem_view n (Ranks.mem_onto.mp isOnto).1

/-- All positions have been visited. -/
theorem OntoBelow.marks
    {m : Nat}
    (holds : OntoBelow memory dst orig relmap bits bits m state) :
    Marks memory dst bits (ontoBits memory orig relmap bits) state := by
  have allBelow :
      (ontoBits memory orig relmap bits).filter (· < bits) =
        ontoBits memory orig relmap bits :=
    Finset.filter_true_of_mem ontoBits_lt
  rw [← allBelow]
  exact holds.2

/-- `bitmap_onto` sets the positions whose ordinal is set in the original. -/
theorem ensures_bitmapOnto
    (positive : 1 ≤ bits)
    (mapped : memory.longs.Mapped dst (bitsToLongs bits))
    (mappedOrig : memory.longs.Mapped orig (bitsToLongs bits))
    (mappedRelmap : memory.longs.Mapped relmap (bitsToLongs bits))
    (apartOrig : NoOverlap dst orig (bitsToLongs bits))
    (apartRelmap : NoOverlap dst relmap (bitsToLongs bits)) :
    (bitmapOnto dst orig relmap bits).Ensures memory fun _ =>
      Marks memory dst bits (ontoBits memory orig relmap bits) := by
  rw [bitmapOnto, if_neg (apartOrig.ne positive), ensures_bind]
  refine (ensures_bitmapZero_marks mapped).weaken ?_
  intro _ zeroed cleared
  have sameRelmap := cleared.sameWords apartRelmap
  rw [ensures_bind]
  refine (ensures_forEachSetBit
    (OntoBelow memory dst orig relmap bits)
    (cleared.stays_mapped mappedRelmap) ?_ ?_ ?_ ?_).weaken ?_
  · intro n m state holds index below
    rw [holds.2.sameWords apartRelmap index below,
      sameRelmap index below]
  · intro n below isClear m state holds
    apply holds.skip
    rw [← sameRelmap.view_eq, mem_view, isClear]
    simp
  · intro n below isSet m state holds
    apply holds.step mappedOrig apartOrig
    rw [← sameRelmap.view_eq]
    exact mem_view.mpr ⟨below, isSet⟩
  · refine ⟨rfl, ?_⟩
    simpa using cleared
  · intro m after holds
    exact ensures_pure.mpr holds.marks

/-- The plain loop sets the positions with an ordinal that is set. -/
theorem ensures_bitmapOntoPlain
    (mapped : memory.longs.Mapped dst (bitsToLongs bits))
    (mappedOrig : memory.longs.Mapped orig (bitsToLongs bits))
    (mappedRelmap : memory.longs.Mapped relmap (bitsToLongs bits))
    (apartOrig : NoOverlap dst orig (bitsToLongs bits))
    (apartRelmap : NoOverlap dst relmap (bitsToLongs bits)) :
    (bitmapOntoPlain dst orig relmap bits).Ensures memory fun _ =>
      Marks memory dst bits (ontoBits memory orig relmap bits) := by
  rw [bitmapOntoPlain, ensures_bind]
  refine (ensures_bitmapZero_marks mapped).weaken ?_
  intro _ zeroed cleared
  rw [ensures_bind]
  refine (ensures_bitmapWeight
    (cleared.stays_mapped mappedRelmap)).weaken ?_
  intro w after isWeight
  obtain ⟨rfl, rfl⟩ := isWeight
  have isCard :
      weightOf after.longs relmap bits =
        (view memory.longs relmap bits).card := by
    rw [weightOf_eq_card, (cleared.sameWords apartRelmap).view_eq]
  rw [ontoBits, Ranks.onto_eq_image, isCard]
  refine ensures_countUp
    (fun m => Marks memory dst bits
      (((Finset.range m).filter (· ∈ view memory.longs orig bits)).image
        (Nat.nth (· ∈ view memory.longs relmap bits)))) ?_ ?_
  · simpa using cleared
  · intro m below state marks
    have inOrig : m < bits :=
      below.trans_le (card_view_le memory.longs relmap bits)
    have inDst := lt_of_mem_view _ (Ranks.nth_mem below)
    rw [ensures_bind]
    refine (ensures_bitmapOrdToPos
      (marks.stays_mapped mappedRelmap)).weaken ?_
    intro n found isPos
    obtain ⟨rfl, rfl⟩ := isPos
    rw [(marks.sameWords apartRelmap).view_eq]
    refine (marks.ensures_setBit_if mappedOrig apartOrig inOrig
      inDst).weaken ?_
    intro _ written marks
    rw [Finset.range_add_one, Finset.filter_insert]
    split at marks
    · rename_i isSet
      rw [if_pos isSet, Finset.image_insert]
      exact marks
    · rename_i isClear
      rw [if_neg isClear]
      exact marks

/-- `bitmap_fold` sets the remainders of the set positions. -/
theorem ensures_bitmapFold
    {sz : Nat}
    (positive : 1 ≤ bits)
    (mapped : memory.longs.Mapped dst (bitsToLongs bits))
    (mappedOrig : memory.longs.Mapped orig (bitsToLongs bits))
    (apartOrig : NoOverlap dst orig (bitsToLongs bits)) :
    (bitmapFold dst orig sz bits).Ensures memory fun _ =>
      Marks memory dst bits
        ((view memory.longs orig bits).image (· % sz)) := by
  rw [bitmapFold, if_neg (apartOrig.ne positive), ensures_bind]
  refine (ensures_bitmapZero_marks mapped).weaken ?_
  intro _ zeroed cleared
  refine ensures_forEachSetBit_image _ mappedOrig apartOrig cleared ?_
  intro oldbit below set state marks
  exact marks.ensures_setBit ((Nat.mod_le _ _).trans_lt below)

/--
`bitmap_onto` follows the rule of its documentation and agrees with the plain
loop, and after `bitmap_fold` every set bit of the original has an image.
-/
structure TranslatesBits
    (memory : CMemory)
    (dst orig relmap : Int)
    (bits : Nat) : Prop where
  rule :
    (bitmapOnto dst orig relmap bits).Ensures memory fun _ after =>
      memory.longs.SameOutside after.longs dst (bitsToLongs bits) ∧
        ∀ n < bits,
          after.longs.bit dst n = true ↔
            memory.longs.bit relmap n = true ∧
              memory.longs.bit orig
                (Nat.count (· ∈ view memory.longs relmap bits) n) = true
  plain :
    (bitmapOnto dst orig relmap bits).Ensures memory fun _ after =>
      (bitmapOntoPlain dst orig relmap bits).Ensures memory
        fun _ plainAfter =>
          plainAfter.longs = after.longs ∧ plainAfter.chars = after.chars
  folded :
    ∀ tmp,
      memory.longs.Mapped tmp (bitsToLongs bits) →
      NoOverlap tmp orig (bitsToLongs bits) →
      NoOverlap tmp relmap (bitsToLongs bits) →
      NoOverlap dst tmp (bitsToLongs bits) →
      1 ≤ (view memory.longs relmap bits).card →
      Ensures (do
        let w ← bitmapWeight relmap bits
        bitmapFold tmp orig w bits
        bitmapOnto dst tmp relmap bits) memory fun _ after =>
          view after.longs dst bits =
            (view memory.longs orig bits).image (fun m =>
              Nat.nth (· ∈ view memory.longs relmap bits)
                (m % (view memory.longs relmap bits).card)) ∧
          (view after.longs dst bits = ∅ ↔
            view memory.longs orig bits = ∅) ∧
          view after.longs dst bits ⊆ view memory.longs relmap bits

/-- `bitmap_onto`, alone and after `bitmap_fold`. -/
theorem onto_translates_bits
    (positive : 1 ≤ bits)
    (mapped : memory.longs.Mapped dst (bitsToLongs bits))
    (mappedOrig : memory.longs.Mapped orig (bitsToLongs bits))
    (mappedRelmap : memory.longs.Mapped relmap (bitsToLongs bits))
    (apartOrig : NoOverlap dst orig (bitsToLongs bits))
    (apartRelmap : NoOverlap dst relmap (bitsToLongs bits)) :
    TranslatesBits memory dst orig relmap bits where
  rule := by
    refine (ensures_bitmapOnto positive mapped mappedOrig mappedRelmap
      apartOrig apartRelmap).weaken ?_
    intro _ after marks
    refine ⟨marks.outside, ?_⟩
    intro n below
    have enough := le_bitsToLongs_mul bits
    have ordinal :
        Nat.count (· ∈ view memory.longs relmap bits) n < bits :=
      lt_of_le_of_lt (Nat.count_le _) below
    rw [marks.isValue n (by omega), decide_eq_true_iff, ontoBits,
      Ranks.mem_onto, mem_view, mem_view, and_iff_right below,
      and_iff_right ordinal]
  plain := by
    refine (ensures_bitmapOnto positive mapped mappedOrig mappedRelmap
      apartOrig apartRelmap).weaken ?_
    intro _ after marks
    refine (ensures_bitmapOntoPlain mapped mappedOrig mappedRelmap
      apartOrig apartRelmap).weaken ?_
    intro _ plainAfter plainMarks
    exact plainMarks.unique marks
  folded := by
    intro tmp mappedTmp tmpOrig tmpRelmap apartTmp nonempty
    rw [ensures_bind]
    refine (ensures_bitmapWeight mappedRelmap).weaken ?_
    intro w whole isWeight
    obtain ⟨rfl, rfl⟩ := isWeight
    rw [weightOf_eq_card, ensures_bind]
    refine (ensures_bitmapFold positive mappedTmp mappedOrig
      tmpOrig).weaken ?_
    intro _ between folded
    have isFolded :
        view between.longs tmp bits =
          (view whole.longs orig bits).image
            (· % (view whole.longs relmap bits).card) := by
      apply folded.view_eq
      intro index isImage
      obtain ⟨m, member, rfl⟩ := Finset.mem_image.mp isImage
      exact (Nat.mod_le _ _).trans_lt (lt_of_mem_view m member)
    refine (ensures_bitmapOnto positive (folded.stays_mapped mapped)
      folded.mapped (folded.stays_mapped mappedRelmap) apartTmp
      apartRelmap).weaken ?_
    intro _ after marks
    have isView :
        view after.longs dst bits =
          (view whole.longs orig bits).image (fun m =>
            Nat.nth (· ∈ view whole.longs relmap bits)
              (m % (view whole.longs relmap bits).card)) := by
      rw [marks.view_eq ontoBits_lt, ontoBits, isFolded,
        (folded.sameWords tmpRelmap).view_eq, Ranks.onto_fold nonempty]
    refine ⟨isView, ?_, ?_⟩
    · rw [isView, Finset.image_eq_empty]
    · rw [isView]
      intro n isImage
      obtain ⟨m, member, rfl⟩ := Finset.mem_image.mp isImage
      exact Ranks.nth_mem (Nat.mod_lt _ nonempty)

end Onto

section Sample

/-- A result, an original, a relative map and a temporary bitmap. -/
def ontoSample : CMemory where
  longs := .ofList [0, 0x21, 0x92, 0]
  chars := .ofList []

/-- The bitmaps of `ontoSample`, for which two set bits fold to 0 and 2. -/
theorem onto_translates_bits_of_sample :
    TranslatesBits ontoSample 0 1 2 8 ∧
      Ensures (do
        let w ← bitmapWeight 2 8
        bitmapFold 3 1 w 8
        bitmapOnto 0 3 2 8) ontoSample fun _ after =>
          view after.longs 0 8 ≠ ∅ ∧
            view after.longs 0 8 ⊆ view ontoSample.longs 2 8 := by
  have all : ontoSample.longs.Mapped 0 4 := Region.mapped_ofList le_rfl
  have mapped
      (base : Nat)
      (below : base + 1 ≤ 4) :
      ontoSample.longs.Mapped base (bitsToLongs 8) := by
    simpa [bitsToLongs] using all.drop below
  have translates : TranslatesBits ontoSample 0 1 2 8 :=
    onto_translates_bits (by decide) (mapped 0 (by decide))
      (mapped 1 (by decide)) (mapped 2 (by decide)) (.inl (by decide))
      (.inl (by decide))
  refine ⟨translates, ?_⟩
  refine (translates.folded 3 (mapped 3 (by decide)) (.inr (by decide))
    (.inr (by decide)) (.inl (by decide)) (by decide)).weaken ?_
  intro _ after result
  obtain ⟨-, isEmpty, within⟩ := result
  have someBit : view ontoSample.longs 1 8 ≠ ∅ := by
    decide
  exact ⟨fun nothing => someBit (isEmpty.mp nothing), within⟩

end Sample

end LibKern.Bitmap
