import LibKern.BitmapRegions

namespace LibKern.Bitmap

/-!
# The range of the search for a free region

The end of a region is a number of type `int` that can wrap.  In a bitmap of
almost `2 ^ 31` bits without a free region the search goes on behind the
bitmap.
-/

open Program

/-- Another memory has the same bits in the bitmap; all else may differ. -/
structure SameBits
    (other memory : CMemory)
    (bitmap : Int)
    (bits : Nat) : Prop where
  mapped : other.longs.Mapped bitmap (bitsToLongs bits)
  sameBit :
    ∀ index < bits,
      other.longs.bit bitmap index = memory.longs.bit bitmap index

/--
The search for a free region never leaves the bitmap: it ends with the same
result whatever is behind the bits of the bitmap, even if nothing else can be
accessed, it changes nothing there, and it finds a region of the bitmap.
-/
structure StaysInBitmap
    (memory : CMemory)
    (bitmap : Int)
    (bits order : Nat) : Prop where
  tests :
    ∃ result, ∀ other,
      SameBits other memory bitmap bits →
        (bitmapFindFreeRegion bitmap bits order).Ensures other
          fun value _ => value = result
  sets :
    ∀ other,
      SameBits other memory bitmap bits →
        (bitmapFindFreeRegion bitmap bits order).Ensures other
          fun _ after =>
            other.longs.SameOutside after.longs bitmap
              (bitsToLongs bits) ∧
            ∀ index, bits ≤ index →
              after.longs.bit bitmap index = other.longs.bit bitmap index
  returns :
    (bitmapFindFreeRegion bitmap bits order).Ensures memory
      fun result _ =>
        result = -enomem ∨
          0 ≤ result ∧ result + (2 ^ order : Nat) ≤ bits

section Scan

variable {memory other : CMemory}
variable {bitmap : Int}
variable {bits order : Nat}

/-- The same regions of the bitmap are free. -/
theorem SameBits.free_iff
    (same : SameBits other memory bitmap bits)
    {pos : Nat}
    (inside : pos + 2 ^ order ≤ bits) :
    Free other bitmap pos order ↔ Free memory bitmap pos order := by
  refine forall_congr' fun index => forall_congr' fun isInside => ?_
  simp only [InRegion] at isInside
  rw [same.sameBit index (by omega)]

theorem SameBits.freeRegion_iff
    (same : SameBits other memory bitmap bits)
    {pos : Nat} :
    FreeRegion other bitmap bits order pos ↔
      FreeRegion memory bitmap bits order pos := by
  constructor
  · rintro ⟨aligned, inside, free⟩
    exact ⟨aligned, inside, (same.free_iff inside).mp free⟩
  · rintro ⟨aligned, inside, free⟩
    exact ⟨aligned, inside, (same.free_iff inside).mpr free⟩

/-- The first free region is the same. -/
theorem FoundRegion.result_eq
    {result value : Int}
    {after otherAfter : CMemory}
    (found : FoundRegion memory bitmap bits order result after)
    (otherFound : FoundRegion other bitmap bits order value otherAfter)
    (same : SameBits other memory bitmap bits) :
    value = result := by
  rcases found with
    ⟨pos, rfl, aligned, inside, free, busy, -⟩ | ⟨rfl, -, busy⟩ <;>
  rcases otherFound with
    ⟨otherPos, rfl, otherAligned, otherInside, otherFree, otherBusy, -⟩ |
    ⟨rfl, -, otherBusy⟩
  · rcases Nat.lt_trichotomy otherPos pos with less | rfl | greater
    · exact absurd ((same.free_iff otherInside).mp otherFree)
        (busy otherPos less otherAligned)
    · rfl
    · exact absurd ((same.free_iff inside).mpr free)
        (otherBusy pos greater aligned)
  · exact absurd ((same.free_iff inside).mpr free)
      (otherBusy pos aligned inside)
  · exact absurd ((same.free_iff otherInside).mp otherFree)
      (busy otherPos otherAligned otherInside)
  · rfl

/-- The search stays in the bitmap if no end of a region overflows. -/
theorem staysInBitmap_of_inRange
    (mapped : memory.longs.Mapped bitmap (bitsToLongs bits))
    (inRange : bits < 2 ^ 31)
    (bound :
      bits + 2 ^ order < 2 ^ 31 ∨
        ∃ other, FreeRegion memory bitmap bits order other) :
    StaysInBitmap memory bitmap bits order := by
  have searches
      (other : CMemory)
      (same : SameBits other memory bitmap bits) :
      (bitmapFindFreeRegion bitmap bits order).Ensures other
        (FoundRegion other bitmap bits order) := by
    refine ensures_bitmapFindFreeRegion_inRange same.mapped inRange ?_
    simp only [same.freeRegion_iff]
    exact bound
  obtain ⟨result, after, returned, found⟩ :=
    searches memory ⟨mapped, fun _ _ => rfl⟩
  refine ⟨⟨result, fun other same => ?_⟩, fun other same => ?_,
    ⟨result, after, returned, ?_⟩⟩
  · refine (searches other same).weaken ?_
    intro value otherAfter otherFound
    exact found.result_eq otherFound same
  · refine (searches other same).weaken ?_
    intro value otherAfter otherFound
    rcases otherFound with
      ⟨pos, rfl, -, inside, -, -, becomes⟩ | ⟨rfl, rfl, -⟩
    · refine ⟨becomes.outside, ?_⟩
      intro index beyond
      have notInside : ¬InRegion pos order index := by
        simp only [InRegion]
        omega
      rw [becomes.bit_allocated inside index,
        decide_eq_false notInside, Bool.or_false]
    · exact ⟨.refl, fun _ _ => rfl⟩
  · rcases found with ⟨pos, rfl, -, inside, -⟩ | ⟨rfl, -⟩
    · exact .inr ⟨by omega, by omega⟩
    · exact .inl rfl

/-- The words of the bitmap alone, without the memory around them. -/
def onlyWords
    (memory : CMemory)
    (bitmap : Int)
    (bits : Nat) : CMemory where
  longs :=
    ⟨fun address =>
      if bitmap ≤ address ∧ address < bitmap + bitsToLongs bits then
        memory.longs.cell address
      else none⟩
  chars := memory.chars
  calls := memory.calls

theorem sameBits_onlyWords
    (mapped : memory.longs.Mapped bitmap (bitsToLongs bits)) :
    SameBits (onlyWords memory bitmap bits) memory bitmap bits := by
  have sameCell
      (word : Nat)
      (below : word < bitsToLongs bits) :
      (onlyWords memory bitmap bits).longs.cell (bitmap + word) =
        memory.longs.cell (bitmap + word) :=
    if_pos ⟨by omega, by omega⟩
  constructor
  · intro word below
    rw [sameCell word below]
    exact mapped word below
  · intro index below
    have inWords : index / 64 < bitsToLongs bits := by
      simp only [bitsToLongs]
      omega
    rw [Region.bit, Region.bit, sameCell _ inWords]

/-- A search without a free region passes every region in range. -/
theorem ensures_findRegion_iff_of_busy
    (mapped : memory.longs.Mapped bitmap (bitsToLongs bits))
    (inRange : bits < 2 ^ 31)
    (busy : ∀ pos, ¬FreeRegion memory bitmap bits order pos)
    {post : Int → CMemory → Prop}
    (count : Nat)
    (inside : count * 2 ^ order ≤ bits) :
    (bitmapFindFreeRegion bitmap bits order).Ensures memory post ↔
      (loop (findRegion bitmap bits order)
        (.ofNat 32 (count * 2 ^ order))).Ensures memory post := by
  induction count with
  | zero =>
      rw [Nat.zero_mul]
      exact Iff.rfl
  | succ count inductionHypothesis =>
      rw [Nat.succ_mul] at inside ⊢
      have aligned : 2 ^ order ∣ count * 2 ^ order :=
        Nat.dvd_mul_left _ _
      obtain ⟨flow, after, returned, rfl, rfl⟩ :=
        ensures_findRegion_busy mapped inRange aligned inside
          fun free => busy _ ⟨aligned, inside, free⟩
      rw [inductionHypothesis (by omega), ensures_loop,
        returned.ensures_iff]

/-- `REG_OP_ISFREE` changes nothing. -/
theorem preserves_isFree
    (pos : Int)
    (property : CMemory → Prop) :
    (regOp bitmap pos order .isFree).Preserves property := by
  refine Preserves.bind (.anyUp (fun _ => ?_) _) fun _ =>
    preserves_pure _
  exact Preserves.bind (preserves_reads _) fun _ => preserves_pure _

/-- `REG_OP_ISFREE` reads the first word of the region. -/
theorem mapped_of_ensures_isFree
    {pos : Int}
    {post : Int → CMemory → Prop}
    (tests : (regOp bitmap pos order .isFree).Ensures memory post) :
    memory.longs.cell (bitmap + pos.tdiv 64) ≠ none := by
  have positive : 0 < bitsToLongs (2 ^ order) := by
    have size := Nat.two_pow_pos order
    simp only [bitsToLongs]
    omega
  simp only [regOp, ensures_bind] at tests
  have first := tests.anyUp_first positive
  rw [ensures_bind, loadLong, ensures_reads] at first
  obtain ⟨word, atWord, -⟩ := first
  rw [Int.ofNat_zero, Int.add_zero] at atWord
  simp [atWord]

/-- The end of the last region before `2 ^ 31` wraps to the smallest `int`. -/
theorem wrapped_end
    (small : order ≤ 30) :
    BitVec.ofNat 32 (2 ^ 31 - 2 ^ order) + ((1 : BitVec 32) <<< order) =
      BitVec.ofNat 32 (2 ^ 31) := by
  have atMost : 2 ^ order ≤ 2 ^ 30 :=
    Nat.pow_le_pow_right (by decide) small
  rw [end_eq_ofNat (by omega), Nat.sub_add_cancel (by omega)]

/-- Behind this end the search reads in front of the bitmap. -/
theorem not_ensures_findRegion_wrapped
    (small : order ≤ 30)
    (inFront : memory.longs.cell (bitmap - 2 ^ 25) = none)
    {post : Int → CMemory → Prop} :
    ¬(loop (findRegion bitmap bits order)
      (.ofNat 32 (2 ^ 31))).Ensures memory post := by
  have isStart : (BitVec.ofNat 32 (2 ^ 31)).toInt = -2 ^ 31 := by
    decide
  have isWord : (-2 ^ 31 : Int).tdiv 64 = -2 ^ 25 := by
    decide
  have atMost : 2 ^ order ≤ 2 ^ 30 :=
    Nat.pow_le_pow_right (by decide) small
  have positive := Nat.two_pow_pos order
  have isEnd :
      (BitVec.ofNat 32 (2 ^ 31) + ((1 : BitVec 32) <<< order)).toInt < 0 := by
    rw [end_eq_ofNat (by omega), BitVec.toInt_eq_toNat_cond,
      BitVec.toNat_ofNat]
    split <;> omega
  intro ensured
  rw [ensures_loop, findRegion, if_pos (by omega), ensures_bind]
    at ensured
  refine mapped_of_ensures_isFree ensured ?_
  rw [isStart, isWord]
  exact inFront

/-- In a full bitmap of this size the search leaves the bitmap. -/
theorem not_staysInBitmap
    (mapped : memory.longs.Mapped bitmap (bitsToLongs bits))
    (inRange : bits < 2 ^ 31)
    (small : order ≤ 30)
    (large : 2 ^ 31 ≤ bits + 2 ^ order)
    (busy : ∀ pos, ¬FreeRegion memory bitmap bits order pos) :
    ¬StaysInBitmap memory bitmap bits order := by
  intro stays
  have power : 2 ^ 31 = 2 ^ (31 - order) * 2 ^ order := by
    rw [← Nat.pow_add]
    congr 1
    omega
  have positive := Nat.two_pow_pos (31 - order)
  have isLast :
      (2 ^ (31 - order) - 1) * 2 ^ order = 2 ^ 31 - 2 ^ order := by
    rw [Nat.sub_mul, Nat.one_mul, ← power]
  have atMost : 2 ^ order ≤ 2 ^ 30 :=
    Nat.pow_le_pow_right (by decide) small
  have isNegative : (BitVec.ofNat 32 (2 ^ 31)).toInt = -2 ^ 31 := by
    decide
  have same := sameBits_onlyWords mapped
  obtain ⟨result, ends⟩ := stays.tests
  obtain ⟨value, after, returned, inBitmap⟩ := stays.returns
  obtain rfl : value = result :=
    (ends memory ⟨mapped, fun _ _ => rfl⟩).of_returns returned
  have ensured := ends _ same
  rw [ensures_findRegion_iff_of_busy same.mapped inRange
    (by simpa only [same.freeRegion_iff] using busy)
    (2 ^ (31 - order) - 1) (by omega), isLast, ensures_loop,
    findRegion] at ensured
  simp only [wrapped_end small] at ensured
  rw [if_pos (by omega), ensures_bind] at ensured
  obtain ⟨free, between, tested, continues⟩ := ensured
  obtain rfl := preserves_isFree _ (· = _) _ rfl _ _ tested
  split at continues
  · rw [ensures_pure] at continues
    refine not_ensures_findRegion_wrapped small ?_ continues
    exact if_neg (by omega)
  · rw [ensures_bind] at continues
    obtain ⟨_, _, -, isDone⟩ := continues
    rw [ensures_pure, toInt_ofNat_of_lt (by omega)] at isDone
    simp only [enomem] at inBitmap
    omega

/--
The search never leaves the bitmap exactly if the end of the region behind the
last one is a number of type `int` or if a region is free.
-/
theorem region_scan_stays_iff
    (mapped : memory.longs.Mapped bitmap (bitsToLongs bits))
    (inRange : bits ≤ 2 ^ 31 - 1)
    (small : order ≤ 30) :
    StaysInBitmap memory bitmap bits order ↔
      bits + 2 ^ order < 2 ^ 31 ∨
        ∃ pos, FreeRegion memory bitmap bits order pos := by
  constructor
  · contrapose!
    intro outOfRange
    obtain ⟨large, busy⟩ := outOfRange
    exact not_staysInBitmap mapped (by omega) small large busy
  · intro bound
    exact staysInBitmap_of_inRange mapped (by omega) bound

/-- A region of four bits is found in `fourBits`. -/
theorem region_scan_stays_of_sample :
    StaysInBitmap fourBits 0 64 2 :=
  (region_scan_stays_iff (Region.mapped_ofList (by decide)) (by decide)
    (by decide)).mpr (.inl (by decide))

/-- A bitmap of `2 ^ 25` words all of whose bits are set. -/
def fullBitmap : CMemory where
  longs :=
    ⟨fun address =>
      if 0 ≤ address ∧ address < 2 ^ 25 then some (~~~0) else none⟩
  chars := .ofList []

theorem fullBitmap_cell
    {word : Nat}
    (below : word < 2 ^ 25) :
    fullBitmap.longs.cell (0 + word) = some (~~~0) := by
  have inside : (0 : Int) ≤ 0 + word ∧ (0 : Int) + word < 2 ^ 25 := by
    omega
  simp only [fullBitmap, inside, and_self, if_true]

theorem mapped_fullBitmap
    {count : Nat}
    (atMost : count ≤ 2 ^ 25) :
    fullBitmap.longs.Mapped 0 count :=
  fun _ below => ⟨_, fullBitmap_cell (by omega)⟩

/-- The search leaves a full bitmap of `2 ^ 31 - 1` bits. -/
theorem full_bitmap_left :
    fullBitmap.longs.Mapped 0 (bitsToLongs (2 ^ 31 - 1)) ∧
      ¬StaysInBitmap fullBitmap 0 (2 ^ 31 - 1) 30 := by
  have mapped :
      fullBitmap.longs.Mapped 0 (bitsToLongs (2 ^ 31 - 1)) :=
    mapped_fullBitmap (by decide)
  refine ⟨mapped, not_staysInBitmap mapped (by decide) (by decide)
    (by decide) ?_⟩
  intro pos region
  have inside := region.inside
  have isClear := region.free pos ⟨le_rfl, by omega⟩
  rw [Region.bit_of_cell (fullBitmap_cell (by omega)) rfl,
    BitVec.ofNat_eq_ofNat, BitVec.not_zero,
    BitVec.getLsbD_allOnes] at isClear
  have below : pos % 64 < 64 := Nat.mod_lt _ (by decide)
  simp [below] at isClear

end Scan

end LibKern.Bitmap
