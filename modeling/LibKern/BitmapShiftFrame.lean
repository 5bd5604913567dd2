import LibKern.BitmapOps

namespace LibKern.Bitmap

/-!
# Shifts by any number of bits

The shifts clear as many words as they skip, and this number is computed from
the shift alone.  A shift that skips more words than the bitmap has clears
words behind the bitmap or in front of it.
-/

open Program

/-- Only the words of the bitmap change, and nothing remains of many bits. -/
structure ShiftedWithin
    (memory : CMemory)
    (dst : Int)
    (shift bits : Nat)
    (after : CMemory) : Prop where
  chars : after.chars = memory.chars
  outside : memory.longs.SameOutside after.longs dst (bitsToLongs bits)
  isZero :
    bits ≤ shift →
      ∀ word < bitsToLongs bits,
        after.longs.cell (dst + word) = some 0

/-- A shift needs no words but these, and it changes no others. -/
def HarmlessShift
    (program : Program CMemory Unit)
    (dst src : Int)
    (shift bits : Nat) : Prop :=
  ∀ memory : CMemory,
    memory.longs.Mapped dst (bitsToLongs bits) →
    memory.longs.Mapped src (bitsToLongs bits) →
      program.Ensures memory fun _ =>
        ShiftedWithin memory dst shift bits

section Frame

variable {memory before : CMemory}
variable {dst src : Int}
variable {shift bits : Nat}
variable {written wider : Nat → Prop}

/-- The loops have written some of the words. -/
private structure Writing
    (memory : CMemory)
    (dst src : Int)
    (shift bits : Nat)
    (written : Nat → Prop)
    (after : CMemory) : Prop where
  chars : after.chars = memory.chars
  mapped : after.longs.Mapped dst (bitsToLongs bits)
  source : after.longs.Mapped src (bitsToLongs bits)
  outside : memory.longs.SameOutside after.longs dst (bitsToLongs bits)
  isZero :
    bits ≤ shift →
      ∀ word < bitsToLongs bits, written word →
        after.longs.cell (dst + word) = some 0

/-- Nothing has been written yet. -/
private theorem Writing.start
    (mapped : memory.longs.Mapped dst (bitsToLongs bits))
    (source : memory.longs.Mapped src (bitsToLongs bits))
    (nothing : ∀ word < bitsToLongs bits, ¬written word) :
    Writing memory dst src shift bits written memory :=
  ⟨rfl, mapped, source, .refl,
    fun _ word below isWritten => absurd isWritten (nothing word below)⟩

/-- A word is written; its bits are those of a bitmap that is shifted. -/
private theorem Writing.write
    {position : Nat}
    {word : BitVec 64}
    {shifted : Nat → Bool}
    (writing : Writing memory dst src shift bits written before)
    (below : position < bitsToLongs bits)
    (isWord :
      ∀ index < 64,
        word.getLsbD index = shifted (position * 64 + index))
    (nothing : bits ≤ shift → ∀ index, shifted index = false)
    (atMost : ∀ other, wider other → written other ∨ other = position) :
    Writing memory dst src shift bits wider
      { before with
        longs := before.longs.write (dst + position) word } := by
  refine ⟨writing.chars, writing.mapped.write _ _,
    writing.source.write _ _, writing.outside.trans (.write below _), ?_⟩
  intro far other inside isWritten
  have isZero : word = 0 := by
    apply BitVec.eq_of_getLsbD_eq
    intro index bound
    rw [isWord index bound, nothing far, BitVec.ofNat_eq_ofNat,
      BitVec.getLsbD_zero]
  by_cases same : other = position
  · subst same isZero
    exact Region.write_cell_same _ _ _
  · have isOld : written other :=
      (atMost other isWritten).resolve_right same
    rw [Region.write_cell_of_ne _ (by omega)]
    exact writing.isZero far other inside isOld

/-- All words have been written. -/
private theorem Writing.shiftedWithin
    (writing : Writing memory dst src shift bits written before)
    (every : ∀ word < bitsToLongs bits, written word) :
    ShiftedWithin memory dst shift bits before := by
  refine ⟨writing.chars, writing.outside, ?_⟩
  intro far word below
  exact writing.isZero far word below (every word below)

/-- All words that have not been written are cleared. -/
private theorem Writing.ensures_clear
    {offset count : Nat}
    (writing : Writing memory dst src shift bits written before)
    (inside : offset + count ≤ bitsToLongs bits)
    (isRest :
      ∀ word < bitsToLongs bits,
        written word ∨ offset ≤ word ∧ word < offset + count) :
    (clearLongs (dst + offset) count).Ensures before fun _ =>
      ShiftedWithin memory dst shift bits := by
  refine (ensures_clearLongs (writing.mapped.drop inside)).weaken ?_
  intro _ after cleared
  obtain ⟨sameChars, -, same, isZero⟩ := cleared
  refine ⟨sameChars.trans writing.chars,
    writing.outside.trans (same.within inside), ?_⟩
  intro far word below
  by_cases isCleared : offset ≤ word ∧ word < offset + count
  · have atWord := isZero (word - offset) (by omega)
    have position :
        dst + offset + ((word - offset : Nat) : Int) = dst + word := by
      omega
    rwa [position] at atWord
  · have isWritten := (isRest word below).resolve_right isCleared
    rw [same _ (by omega)]
    exact writing.isZero far word below isWritten

/-- Nothing remains of bits that are shifted out to the left. -/
theorem shiftedLeft_eq_false
    {longs : Region (BitVec 64)}
    (far : bits ≤ shift)
    (index : Nat) :
    shiftedLeft longs src shift bits index = false := by
  rw [shiftedLeft, decide_eq_false (by omega), Bool.false_and]

/-- Nothing remains of bits that are shifted out to the right. -/
theorem shiftedRight_eq_false
    {longs : Region (BitVec 64)}
    (far : bits ≤ shift)
    (index : Nat) :
    shiftedRight longs src shift bits index = false := by
  rw [shiftedRight, decide_eq_false (by omega), Bool.false_and]

/-- A shift to the left that skips no more words than there are. -/
theorem harmlessShift_left
    (fits : shift / 64 ≤ bitsToLongs bits) :
    HarmlessShift (bitmapShiftLeft dst src shift bits) dst src shift
      bits := by
  intro memory mapped source
  rw [bitmapShiftLeft, ensures_bind]
  refine (ensures_countDown
    (fun remaining =>
      Writing memory dst src shift bits fun word =>
        remaining + shift / 64 ≤ word)
    (.start mapped source (by omega)) ?_).weaken ?_
  · intro k below before writing
    have inside : k + shift / 64 < bitsToLongs bits := by
      omega
    refine (ensures_bitmapShiftLeftWord writing.mapped
      (writing.source.mono (by omega)) inside).weaken ?_
    intro _ after result
    obtain ⟨word, rfl, isWord⟩ := result
    exact writing.write inside isWord shiftedLeft_eq_false (by omega)
  · intro _ shifted writing
    by_cases whole : shift / 64 = 0
    · refine (ensures_onlyIf_of_not (by simpa using whole)).mpr ?_
      exact writing.shiftedWithin (by omega)
    · refine (ensures_onlyIf_of whole).mpr ?_
      have cleared :=
        @Writing.ensures_clear _ _ _ _ _ _ _ 0 (shift / 64) writing
          (by omega) (by omega)
      rwa [Nat.cast_zero, add_zero] at cleared

/-- A shift to the right that skips no more words than there are. -/
theorem harmlessShift_right
    (fits : shift / 64 ≤ bitsToLongs bits) :
    HarmlessShift (bitmapShiftRight dst src shift bits) dst src shift
      bits := by
  intro memory mapped source
  rw [bitmapShiftRight, ensures_bind]
  refine (ensures_countUp
    (fun done =>
      Writing memory dst src shift bits fun word => word < done)
    (.start mapped source (by omega)) ?_).weaken ?_
  · intro done below before writing
    refine (ensures_bitmapShiftRightWord writing.mapped writing.source
      (by omega)).weaken ?_
    intro _ after result
    obtain ⟨word, rfl, isWord⟩ := result
    exact writing.write (by omega) isWord shiftedRight_eq_false
      (by omega)
  · intro _ shifted writing
    by_cases whole : shift / 64 = 0
    · refine (ensures_onlyIf_of_not (by simpa using whole)).mpr ?_
      exact writing.shiftedWithin (by omega)
    · refine (ensures_onlyIf_of whole).mpr ?_
      have start :
          dst + (bitsToLongs bits : Int) - (shift / 64 : Nat) =
            dst + (bitsToLongs bits - shift / 64 : Nat) := by
        omega
      rw [start]
      exact writing.ensures_clear (by omega) (by omega)

/-- A shift to the left that skips too many words clears the word behind. -/
theorem ensures_word_behind_cleared
    (beyond : bitsToLongs bits < shift / 64)
    (mapped : memory.longs.Mapped dst (shift / 64)) :
    (bitmapShiftLeft dst src shift bits).Ensures memory fun _ after =>
      after.longs.cell (dst + (bitsToLongs bits : Nat)) = some 0 := by
  rw [bitmapShiftLeft, Nat.sub_eq_zero_of_le beyond.le, ensures_bind,
    countDown, ensures_pure, ensures_onlyIf_of (by omega)]
  refine (ensures_clearLongs mapped).weaken ?_
  intro _ after cleared
  exact cleared.2.2.2 _ beyond

/-- A shift to the right that skips too many words clears a word in front. -/
theorem ensures_word_in_front_cleared
    (beyond : bitsToLongs bits < shift / 64)
    (mapped :
      memory.longs.Mapped
        (dst + (bitsToLongs bits : Int) - (shift / 64 : Nat))
        (shift / 64)) :
    (bitmapShiftRight dst src shift bits).Ensures memory fun _ after =>
      after.longs.cell
        (dst + (bitsToLongs bits : Int) - (shift / 64 : Nat)) =
          some 0 := by
  rw [bitmapShiftRight, Nat.sub_eq_zero_of_le beyond.le, ensures_bind,
    countUp, ensures_pure, ensures_onlyIf_of (by omega)]
  refine (ensures_clearLongs mapped).weaken ?_
  intro _ after cleared
  have atFirst := cleared.2.2.2 0 (by omega)
  rwa [Nat.cast_zero, add_zero] at atFirst

/-- A memory all of whose words are one. -/
def allOnes : CMemory where
  longs := ⟨fun _ => some 1⟩
  chars := .ofList []

theorem mapped_allOnes
    (base : Int)
    (count : Nat) :
    allOnes.longs.Mapped base count :=
  fun _ _ => ⟨1, rfl⟩

/-- A shift that clears a word outside of the bitmap is not harmless. -/
theorem not_harmlessShift_of_cleared
    {program : Program CMemory Unit}
    {address : Int}
    (isOutside : address < dst ∨ dst + (bitsToLongs bits : Int) ≤ address)
    (clears :
      program.Ensures allOnes fun _ after =>
        after.longs.cell address = some 0) :
    ¬HarmlessShift program dst src shift bits := by
  intro harmless
  obtain ⟨_, after, returned, atAddress⟩ := clears
  have within :=
    (harmless allOnes (mapped_allOnes _ _)
      (mapped_allOnes _ _)).of_returns returned
  rw [within.outside address isOutside] at atAddress
  exact absurd (Option.some.inj atAddress) (by decide)

/--
The shifts are harmless exactly if they skip no more words than the bitmap
has.
-/
theorem shifts_harmless_iff_skip_fits
    (dst src : Int)
    (shift bits : Nat) :
    (HarmlessShift (bitmapShiftLeft dst src shift bits) dst src shift
        bits ↔
      shift / 64 ≤ bitsToLongs bits) ∧
      (HarmlessShift (bitmapShiftRight dst src shift bits) dst src shift
          bits ↔
        shift / 64 ≤ bitsToLongs bits) := by
  refine ⟨⟨?_, harmlessShift_left⟩, ⟨?_, harmlessShift_right⟩⟩
  · contrapose!
    intro beyond
    exact not_harmlessShift_of_cleared (.inr le_rfl)
      (ensures_word_behind_cleared beyond (mapped_allOnes _ _))
  · contrapose!
    intro beyond
    exact not_harmlessShift_of_cleared (.inl (by omega))
      (ensures_word_in_front_cleared beyond (mapped_allOnes _ _))

/-- The middle one of three words is a bitmap. -/
def neighbourWords : CMemory where
  longs := .ofList [1, 1, 1]
  chars := .ofList []

/-- A shift by 128 bits clears a word next to a bitmap of 64 bits. -/
theorem neighbour_words_cleared :
    ((bitmapShiftLeft 1 1 128 64).Ensures neighbourWords fun _ after =>
      after.longs.cell 2 = some 0 ∧
        ¬ShiftedWithin neighbourWords 1 128 64 after) ∧
      (bitmapShiftRight 1 1 128 64).Ensures neighbourWords fun _ after =>
        after.longs.cell 0 = some 0 ∧
          ¬ShiftedWithin neighbourWords 1 128 64 after := by
  have notWithin
      {after : CMemory}
      {address : Int}
      (isOutside : address < 1 ∨ 2 ≤ address)
      (isOne : neighbourWords.longs.cell address = some 1)
      (isZero : after.longs.cell address = some 0) :
      ¬ShiftedWithin neighbourWords 1 128 64 after := by
    intro within
    rw [within.outside address isOutside, isOne] at isZero
    exact absurd (Option.some.inj isZero) (by decide)
  constructor
  · refine (@ensures_word_behind_cleared neighbourWords 1 1 128 64 (by decide)
      ?_).weaken ?_
    · exact Region.Mapped.drop (Region.mapped_ofList (by decide))
        (by decide : 1 + 2 ≤ 3)
    · intro _ after isZero
      exact ⟨isZero, notWithin (by decide) rfl isZero⟩
  · refine (@ensures_word_in_front_cleared neighbourWords 1 1 128 64
      (by decide) ?_).weaken ?_
    · exact Region.mapped_ofList (by decide)
    · intro _ after isZero
      exact ⟨isZero, notWithin (by decide) rfl isZero⟩

end Frame

end LibKern.Bitmap
