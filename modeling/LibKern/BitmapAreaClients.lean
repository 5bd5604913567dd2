import LibKern.BitmapAreas
import LibKern.Clients

namespace LibKern.Bitmap

/-!
# Clients of areas see a first-fit allocator

A client reserves areas of a bitmap, with a search and `bitmap_set`, and
releases them again with `bitmap_clear`.  What it sees is a list of areas that
are apart, to which each new area is added at the first place that fits.  The
bitmap has no other memory of what was reserved and released.
-/

open Program

/-- A position is in an area. -/
def Covers (area : Nat × Nat) (position : Nat) : Prop :=
  area.1 ≤ position ∧ position < area.1 + area.2

instance (area : Nat × Nat) (position : Nat) :
    Decidable (Covers area position) :=
  inferInstanceAs (Decidable (_ ∧ _))

instance (one other : Nat × Nat) : Decidable (AreasApart one other) :=
  inferInstanceAs (Decidable (_ ∨ _))

section Areas

variable {one other : Nat × Nat}
variable {position : Nat}

/-- Areas that are apart have no position in common. -/
theorem AreasApart.not_covers
    (apart : AreasApart one other)
    (inOne : Covers one position) :
    ¬Covers other position := by
  intro inOther
  obtain ⟨above, below⟩ := inOne
  obtain ⟨otherAbove, otherBelow⟩ := inOther
  rcases apart with before | behind
  · omega
  · omega

/-- Areas with no position in common are apart. -/
theorem areasApart_of_not_covers
    (nonempty : 1 ≤ one.2)
    (otherNonempty : 1 ≤ other.2)
    (noPosition : ∀ position, Covers one position → ¬Covers other position) :
    AreasApart one other := by
  by_contra notApart
  simp only [AreasApart, not_or, not_le] at notApart
  rcases le_total one.1 other.1 with before | behind
  · exact noPosition other.1 ⟨before, by omega⟩ ⟨le_rfl, by omega⟩
  · exact noPosition one.1 ⟨le_rfl, by omega⟩ ⟨behind, by omega⟩

theorem AreasApart.symm
    (apart : AreasApart one other) :
    AreasApart other one :=
  Or.symm apart

end Areas

/--
The place is aligned and not before a position, and the area there is inside
of the bitmap, apart from the others, and was not taken from the start on.
-/
def Gap
    (taken : Nat → Bool)
    (areas : List (Nat × Nat))
    (size start nr exponent index : Nat) : Prop :=
  start ≤ index ∧ 2 ^ exponent ∣ index ∧ index + nr ≤ size ∧
    (∀ area ∈ areas, AreasApart (index, nr) area) ∧
    ∀ position < size, Covers (index, nr) position → taken position = false

instance
    (taken : Nat → Bool)
    (areas : List (Nat × Nat))
    (size start nr exponent index : Nat) :
    Decidable (Gap taken areas size start nr exponent index) :=
  inferInstanceAs (Decidable (_ ∧ _ ∧ _ ∧ _ ∧ _))

/-- The first place that fits. -/
def firstGap
    (taken : Nat → Bool)
    (areas : List (Nat × Nat))
    (size start nr exponent : Nat) : Option Nat :=
  (List.range size).find? fun index =>
    Gap taken areas size start nr exponent index

/-- The calls of a client: reserve an area, or release one. -/
inductive AreaCall where
  | reserve (size start : BitVec 64) (nr : BitVec 32) (exponent : Nat)
  | release (area : Nat × Nat)

/-- Search for an area, and set it if there is one. -/
def reserveArea
    (map : Int)
    (size start : BitVec 64)
    (nr : BitVec 32)
    (exponent : Nat) : Program CMemory (Option Nat) := do
  let index ←
    bitmapFindNextZeroArea map size start nr (powerMask exponent)
  if index < size then do
    bitmapSet map index.toNat nr.toNat
    pure (some index.toNat)
  else
    pure none

/-- The code of a call. -/
def AreaCall.program (map : Int) :
    AreaCall → Program CMemory (Option Nat)
  | .reserve size start nr exponent =>
      reserveArea map size start nr exponent
  | .release area => do
      bitmapClear map area.1 area.2
      pure none

/-- The answer to a call, and the areas after it. -/
def AreaCall.specification (taken : Nat → Bool) :
    AreaCall → List (Nat × Nat) → Option Nat × List (Nat × Nat)
  | .reserve size start nr exponent, areas =>
      match firstGap taken areas size.toNat start.toNat nr.toNat
          exponent with
      | some index => (some index, (index, nr.toNat) :: areas)
      | none => (none, areas)
  | .release area, areas => (none, areas.erase area)

/--
Requests are for at least one position of the array, the positions are numbers
of type `int`, and what is released was reserved before.
-/
def AreaCall.Legal (words : Nat) (areas : List (Nat × Nat)) :
    AreaCall → Prop
  | .reserve size _ nr exponent =>
      bitsToLongs size.toNat ≤ words ∧ size.toNat ≤ intMax ∧
        1 ≤ nr.toNat ∧ exponent ≤ 63
  | .release area => area ∈ areas

/--
The bits that are set are the ones from the start and the ones of the areas,
which are apart, and nothing else was changed.
-/
structure Occupies
    (initial : CMemory)
    (map : Int)
    (words : Nat)
    (memory : CMemory)
    (areas : List (Nat × Nat)) : Prop where
  mapped : memory.longs.Mapped map words
  apart : areas.Pairwise AreasApart
  nonempty : ∀ area ∈ areas, 1 ≤ area.2
  inside : ∀ area ∈ areas, area.1 + area.2 ≤ words * 64
  wasClear :
    ∀ area ∈ areas, ∀ position, Covers area position →
      initial.longs.bit map position = false
  isSet_iff :
    ∀ position,
      memory.longs.bit map position = true ↔
        initial.longs.bit map position = true ∨
          ∃ area ∈ areas, Covers area position
  outside : initial.longs.SameOutside memory.longs map words
  chars : memory.chars = initial.chars
  calls : memory.calls = initial.calls

/-- The words that cover an area of the array. -/
theorem coveringWords_le
    {start nr words : Nat}
    (nonempty : 1 ≤ nr)
    (inside : start + nr ≤ words * 64) :
    start / 64 + coveringWords start nr ≤ words := by
  rw [coveringWords, if_neg (by omega)]
  omega

section Steps

variable {initial memory after : CMemory}
variable {map : Int}
variable {words : Nat}
variable {areas : List (Nat × Nat)}
variable {index nr : Nat}
variable {value : Bool}

/-- At the start there is no area. -/
theorem occupies_start
    (mapped : initial.longs.Mapped map words) :
    Occupies initial map words initial [] where
  mapped := mapped
  apart := .nil
  nonempty := by simp
  inside := by simp
  wasClear := by simp
  isSet_iff := by simp
  outside := .refl
  chars := rfl
  calls := rfl

/-- The memory is the one at the start when every area was released. -/
theorem Occupies.eq_initial
    (mapped : initial.longs.Mapped map words)
    (occupies : Occupies initial map words memory []) :
    memory = initial := by
  refine CMemory.ext ?_ occupies.chars occupies.calls
  refine Region.eq_of_bits mapped occupies.mapped occupies.outside ?_
  intro position _
  rw [Bool.eq_iff_iff]
  simpa using occupies.isSet_iff position

/-- A change of a range inside of the array. -/
private theorem sameOutside_of_rangeIs
    {start finish count : Nat}
    (range : RangeIs memory map start finish count value after)
    (fits : start / 64 + count ≤ words) :
    memory.longs.SameOutside after.longs map words := by
  intro address isOutside
  apply range.outside
  omega

/-- The new areas after an area was set that was clear. -/
theorem Occupies.reserve
    (occupies : Occupies initial map words memory areas)
    (nonempty : 1 ≤ nr)
    (fits : index + nr ≤ words * 64)
    (clear :
      ∀ position, Covers (index, nr) position →
        memory.longs.bit map position = false)
    (range :
      RangeIs memory map index (index + nr) (coveringWords index nr) true
        after) :
    Occupies initial map words after ((index, nr) :: areas) := by
  have notSet
      (position : Nat)
      (inNew : Covers (index, nr) position) :
      ¬(initial.longs.bit map position = true ∨
        ∃ area ∈ areas, Covers area position) := by
    rw [← occupies.isSet_iff, clear position inNew]
    simp
  refine ⟨range.outside.mapped range.mapped occupies.mapped,
    List.pairwise_cons.mpr ⟨?_, occupies.apart⟩, ?_, ?_, ?_, ?_,
    occupies.outside.trans
      (sameOutside_of_rangeIs range (coveringWords_le nonempty fits)),
    range.chars.trans occupies.chars, range.calls.trans occupies.calls⟩
  · intro area member
    apply areasApart_of_not_covers nonempty (occupies.nonempty area member)
    intro position inNew inArea
    exact notSet position inNew (.inr ⟨area, member, inArea⟩)
  · intro area member
    rcases List.mem_cons.mp member with rfl | earlier
    · exact nonempty
    · exact occupies.nonempty area earlier
  · intro area member
    rcases List.mem_cons.mp member with rfl | earlier
    · exact fits
    · exact occupies.inside area earlier
  · intro area member position inArea
    rcases List.mem_cons.mp member with rfl | earlier
    · rw [← Bool.not_eq_true]
      exact fun wasSet => notSet position inArea (.inl wasSet)
    · exact occupies.wasClear area earlier position inArea
  · intro position
    by_cases inNew : Covers (index, nr) position
    · rw [range.inside position inNew.1 inNew.2]
      simp [inNew]
    · have isElsewhere : position < index ∨ index + nr ≤ position := by
        simp only [Covers] at inNew
        omega
      rw [range.elsewhere position isElsewhere, occupies.isSet_iff]
      simp [inNew]

/-- The areas after one of them was cleared. -/
theorem Occupies.release
    {area : Nat × Nat}
    (occupies : Occupies initial map words memory areas)
    (member : area ∈ areas)
    (range :
      RangeIs memory map area.1 (area.1 + area.2)
        (coveringWords area.1 area.2) false after) :
    Occupies initial map words after (areas.erase area) := by
  have fits :=
    coveringWords_le (occupies.nonempty area member)
      (occupies.inside area member)
  have permuted := List.perm_cons_erase member
  have apart :
      ∀ other ∈ areas.erase area, AreasApart area other := by
    have pairwise :=
      permuted.pairwise occupies.apart fun apart => apart.symm
    exact (List.pairwise_cons.mp pairwise).1
  have members
      {other : Nat × Nat}
      (stays : other ∈ areas.erase area) :
      other ∈ areas :=
    List.mem_of_mem_erase stays
  refine ⟨range.outside.mapped range.mapped occupies.mapped,
    occupies.apart.sublist List.erase_sublist,
    fun other stays => occupies.nonempty other (members stays),
    fun other stays => occupies.inside other (members stays),
    fun other stays => occupies.wasClear other (members stays), ?_,
    occupies.outside.trans (sameOutside_of_rangeIs range fits),
    range.chars.trans occupies.chars, range.calls.trans occupies.calls⟩
  intro position
  by_cases inArea : Covers area position
  · rw [range.inside position inArea.1 inArea.2,
      occupies.wasClear area member position inArea]
    simp only [Bool.false_eq_true, false_or, false_iff, not_exists,
      not_and]
    intro other stays
    exact (apart other stays).not_covers inArea
  · have isElsewhere :
        position < area.1 ∨ area.1 + area.2 ≤ position := by
      simp only [Covers] at inArea
      omega
    rw [range.elsewhere position isElsewhere, occupies.isSet_iff]
    refine or_congr_right (exists_congr fun other => ?_)
    refine and_congr_left fun covers => ?_
    have different : other ≠ area := by
      rintro rfl
      exact inArea covers
    exact (List.mem_erase_of_ne different).symm

/-- A clear area of the bitmap is a gap between the areas. -/
theorem Occupies.zeroArea_iff_gap
    {size start exponent : Nat}
    (occupies : Occupies initial map words memory areas)
    (nonempty : 1 ≤ nr) :
    ZeroArea memory map size start nr exponent index ↔
      Gap (initial.longs.bit map) areas size start nr exponent index := by
  constructor
  · intro area
    have notSet
        (position : Nat)
        (inNew : Covers (index, nr) position) :
        ¬(initial.longs.bit map position = true ∨
          ∃ area ∈ areas, Covers area position) := by
      rw [← occupies.isSet_iff, area.clear position inNew.1 inNew.2]
      simp
    refine ⟨area.reached, area.aligned, area.inside, ?_, ?_⟩
    · intro other member
      apply areasApart_of_not_covers nonempty
        (occupies.nonempty other member)
      intro position inNew inOther
      exact notSet position inNew (.inr ⟨other, member, inOther⟩)
    · intro position _ inNew
      rw [← Bool.not_eq_true]
      exact fun wasSet => notSet position inNew (.inl wasSet)
  · intro gap
    obtain ⟨reached, aligned, inside, apart, notTaken⟩ := gap
    refine ⟨reached, aligned, inside, ?_⟩
    intro position above below
    rw [← Bool.not_eq_true, occupies.isSet_iff]
    rintro (wasSet | ⟨other, member, inOther⟩)
    · rw [notTaken position (by omega) ⟨above, below⟩] at wasSet
      exact absurd wasSet (by simp)
    · exact (apart other member).not_covers ⟨above, below⟩ inOther

/-- The search finds the first gap. -/
theorem Occupies.firstGap_eq
    {size start exponent result : Nat}
    (occupies : Occupies initial map words memory areas)
    (nonempty : 1 ≤ nr)
    (firstFit : FirstFit memory map size start nr exponent result) :
    firstGap (initial.longs.bit map) areas size start nr exponent =
      if result < size then some result else none := by
  rcases firstFit with ⟨area, least⟩ | ⟨noArea, beyond⟩
  · have inside := area.inside
    rw [if_pos (by omega), firstGap, List.find?_range_eq_some,
      decide_eq_true_iff]
    refine ⟨(occupies.zeroArea_iff_gap nonempty).mp area,
      List.mem_range.mpr (by omega), ?_⟩
    intro earlier before
    rw [Bool.not_eq_true', decide_eq_false_iff_not,
      ← occupies.zeroArea_iff_gap nonempty]
    intro isArea
    have atLeast := least isArea
    omega
  · rw [if_neg (by omega), firstGap, List.find?_range_eq_none]
    intro place _
    rw [Bool.not_eq_true', decide_eq_false_iff_not,
      ← occupies.zeroArea_iff_gap nonempty]
    exact noArea place

/-- The positions of a bitmap are positions of its words. -/
private theorem le_words_mul
    {size : Nat}
    (fits : bitsToLongs size ≤ words) :
    size ≤ words * 64 := by
  simp only [bitsToLongs] at fits
  omega

/-- Reserving an area does what the specification says. -/
theorem Occupies.ensures_reserveArea
    {size start : BitVec 64}
    {nr : BitVec 32}
    {exponent : Nat}
    (occupies : Occupies initial map words memory areas)
    (legal :
      AreaCall.Legal words areas (.reserve size start nr exponent)) :
    (reserveArea map size start nr exponent).Ensures memory
      fun answer after =>
        answer =
            (AreaCall.specification (initial.longs.bit map)
              (.reserve size start nr exponent) areas).1 ∧
          Occupies initial map words after
            (AreaCall.specification (initial.longs.bit map)
              (.reserve size start nr exponent) areas).2 := by
  obtain ⟨fits, small, nonempty, bound⟩ := legal
  have sizeSmall : size.toNat ≤ 2 ^ 63 :=
    small.trans (by decide)
  rw [reserveArea, ensures_bind]
  refine (ensures_bitmapFindNextZeroArea (occupies.mapped.mono fits)
    sizeSmall nonempty bound).weaken ?_
  intro index between found
  obtain ⟨rfl, firstFit⟩ := found
  have isGap := occupies.firstGap_eq nonempty firstFit
  simp only [AreaCall.specification, isGap]
  rw [ensures_ite]
  split
  · rename_i inside
    rw [BitVec.lt_def] at inside
    rw [if_pos inside]
    rcases firstFit with ⟨area, -⟩ | ⟨-, beyond⟩
    · have fitting := area.inside.trans (le_words_mul fits)
      have covered := coveringWords_le nonempty fitting
      rw [ensures_bind]
      refine (ensures_bitmapSet
        (occupies.mapped.drop covered)).weaken ?_
      intro _ after range
      rw [ensures_pure]
      refine ⟨rfl, occupies.reserve nonempty fitting ?_ range⟩
      intro position inArea
      exact area.clear position inArea.1 inArea.2
    · omega
  · rename_i beyond
    rw [BitVec.lt_def] at beyond
    rw [if_neg beyond, ensures_pure]
    exact ⟨rfl, occupies⟩

/-- Every call does what the specification says. -/
theorem Occupies.ensures_program
    (occupies : Occupies initial map words memory areas)
    {request : AreaCall}
    (legal : AreaCall.Legal words areas request) :
    (request.program map).Ensures memory fun answer after =>
      answer =
          (request.specification (initial.longs.bit map) areas).1 ∧
        Occupies initial map words after
          (request.specification (initial.longs.bit map) areas).2 := by
  cases request with
  | reserve size start nr exponent =>
      exact occupies.ensures_reserveArea legal
  | release area =>
      have fits :=
        coveringWords_le (occupies.nonempty area legal)
          (occupies.inside area legal)
      rw [AreaCall.program, ensures_bind]
      refine (ensures_bitmapClear
        (occupies.mapped.drop fits)).weaken ?_
      intro _ after range
      rw [ensures_pure]
      exact ⟨rfl, occupies.release legal range⟩

end Steps

/--
Whatever a client reserves and releases, it gets the answers of the first-fit
allocator, the areas it holds are apart, the bits that are set are the ones
from the start and the ones of these areas, and when it has released every
area the memory is the one at the start.
-/
theorem areaClients_see_first_fit
    {initial : CMemory}
    {map : Int}
    {words : Nat}
    {client : Client AreaCall (Option Nat)}
    (mapped : initial.longs.Mapped map words)
    (legal :
      client.Legal (AreaCall.specification (initial.longs.bit map))
        (AreaCall.Legal words) []) :
    (client.run (AreaCall.program map)).Ensures initial
      fun answers after =>
        ∃ areas,
          client.meaning (AreaCall.specification (initial.longs.bit map))
              [] = (answers, areas) ∧
            areas.Pairwise AreasApart ∧
            (∀ position,
              after.longs.bit map position = true ↔
                initial.longs.bit map position = true ∨
                  ∃ area ∈ areas, Covers area position) ∧
            (areas = [] → after = initial) := by
  refine (Client.ensures_run (Occupies initial map words) ?_
    (occupies_start mapped) legal).weaken ?_
  · intro request memory areas occupies isLegal
    exact occupies.ensures_program isLegal
  · intro answers after result
    obtain ⟨rfl, occupies⟩ := result
    refine ⟨_, rfl, occupies.apart, occupies.isSet_iff, ?_⟩
    intro released
    rw [released] at occupies
    exact occupies.eq_initial mapped

/--
A client that reserves two areas, releases the first one, and reserves a
smaller one at its place, before it goes on.
-/
def reusingClient
    (rest : Client AreaCall (Option Nat)) :
    Client AreaCall (Option Nat) :=
  .call (.reserve 64 0 5 2) fun first =>
    .call (.reserve 64 0 5 2) fun _ =>
      .call (.release (first.getD 0, 5)) fun _ =>
        .call (.reserve 64 0 3 2) fun _ => rest

/-- A client that releases the two areas. -/
def releasingClient : Client AreaCall (Option Nat) :=
  .call (.release (12, 5)) fun _ =>
    .call (.release (4, 3)) fun _ => .stop

/--
In a word whose two lowest bits are set, the third area gets the place of the
first one, and the word is as before when all areas are released.
-/
theorem areaClients_see_first_fit_of_sample :
    ((reusingClient .stop).run (AreaCall.program 0)).Ensures lowBits
        (fun answers after =>
          answers = [some 4, some 12, none, some 4] ∧
            ∀ position,
              after.longs.bit 0 position = true ↔
                lowBits.longs.bit 0 position = true ∨
                  Covers (4, 3) position ∨ Covers (12, 5) position) ∧
      ((reusingClient releasingClient).run
        (AreaCall.program 0)).Ensures lowBits fun answers after =>
          answers = [some 4, some 12, none, some 4, none, none] ∧
            after = lowBits := by
  have mapped : lowBits.longs.Mapped 0 1 := Region.mapped_ofList le_rfl
  have reuses :
      (reusingClient .stop).meaning
          (AreaCall.specification (lowBits.longs.bit 0)) [] =
        ([some 4, some 12, none, some 4], [(4, 3), (12, 5)]) := by
    decide
  have releases :
      (reusingClient releasingClient).meaning
          (AreaCall.specification (lowBits.longs.bit 0)) [] =
        ([some 4, some 12, none, some 4, none, none], []) := by
    decide
  constructor
  · refine (areaClients_see_first_fit mapped ?_).weaken ?_
    · refine ⟨?_, ?_, ?_, ?_, trivial⟩
      · exact ⟨by decide, by decide, by decide, by decide⟩
      · exact ⟨by decide, by decide, by decide, by decide⟩
      · show (_, 5) ∈ _
        decide
      · exact ⟨by decide, by decide, by decide, by decide⟩
    · intro answers after result
      obtain ⟨areas, means, -, isSet, -⟩ := result
      rw [reuses, Prod.mk.injEq] at means
      obtain ⟨rfl, rfl⟩ := means
      refine ⟨rfl, fun position => ?_⟩
      simpa using isSet position
  · refine (areaClients_see_first_fit mapped ?_).weaken ?_
    · refine ⟨?_, ?_, ?_, ?_, ?_, ?_, trivial⟩
      · exact ⟨by decide, by decide, by decide, by decide⟩
      · exact ⟨by decide, by decide, by decide, by decide⟩
      · show (_, 5) ∈ _
        decide
      · exact ⟨by decide, by decide, by decide, by decide⟩
      · show (12, 5) ∈ _
        decide
      · show (4, 3) ∈ _
        decide
    · intro answers after result
      obtain ⟨areas, means, -, -, restores⟩ := result
      rw [releases, Prod.mk.injEq] at means
      obtain ⟨rfl, rfl⟩ := means
      exact ⟨rfl, restores rfl⟩

end LibKern.Bitmap
