import LibKern.BitmapNormal

namespace LibKern.Bitmap

/-!
# Printed lists are accepted

`bitmap_snlistprintf` prints a text that `bitmap_parselist` reads as the same
bits, unless there is no bit to print: the empty text is printed then, and
`bitmap_parselist` does not accept it.
-/

open Program

variable {mask : CMemory}
variable {buf maskp dst : Int}
variable {buflen : BitVec 32}
variable {nmaskbits : Nat}
variable {text string : List Byte}
variable {list : List (Nat × Nat)}

/-- The list of a bitmap is printed, and it is accepted as the same bits. -/
def RoundTrips
    (mask : CMemory)
    (buf : Int)
    (buflen : BitVec 32)
    (maskp : Int)
    (nmaskbits : Nat)
    (dst : Int) : Prop :=
  (bitmapSnlistprintf buf buflen maskp nmaskbits).Ensures mask
    fun _ printed =>
      (bitmapParselist dst nmaskbits buf).Ensures printed
        fun status after =>
          status = 0 ∧
            ∀ index < nmaskbits,
              after.longs.bit dst index = mask.longs.bit maskp index

/-- There is no item in the empty text. -/
theorem not_items_nil : ¬Items [] list := by
  intro isItems
  obtain ⟨item, tail, isRead, -⟩ := items_iff.mp isItems
  rw [readItem_eq_none rfl] at isRead
  exact absurd isRead (by simp)

/-- A canonical list with a comma at its end. -/
theorem items_listText_comma
    (nonempty : list ≠ []) :
    Items (listText list ++ [ascii ',']) list := by
  induction list with
  | nil =>
      exact absurd rfl nonempty
  | cons run rest inductionHypothesis =>
      rw [listText, List.map_cons]
      cases rest with
      | nil =>
          have isItems := Items.comma (item_rangeText run) (.inl rfl)
          simpa using isItems
      | cons next others =>
          rw [joined_cons _ (by simp), List.append_assoc, List.cons_append]
          exact .more (item_rangeText run) (inductionHypothesis (by simp))

/-- A string with some of the runs is not read as all bits. -/
theorem Cut.not_accepted
    {memory : CMemory}
    (bound : nmaskbits < 2 ^ 31)
    (target : memory.longs.Mapped dst (bitsToLongs nmaskbits))
    (isRuns : Runs (mask.longs.bit maskp) nmaskbits 0 list)
    (isCut : Cut list string)
    (stores : memory.chars.Stores buf (string ++ [0])) :
    ¬(bitmapParselist dst nmaskbits buf).Ensures memory
      fun status after =>
        status = 0 ∧
          ∀ index < nmaskbits,
            after.longs.bit dst index = mask.longs.bit maskp index := by
  obtain ⟨shown, missing, rfl, someShown, someMissing, isString⟩ := isCut
  have isItems : Items string shown := by
    rcases isString with rfl | rfl
    · exact items_listText someShown
    · exact items_listText_comma someShown
  have nonzero : ∀ c ∈ string, c ≠ 0 := by
    rcases isString with rfl | rfl
    · exact ne_zero_of_mem_listText
    · intro c member
      rcases List.mem_append.mp member with inList | isComma
      · exact ne_zero_of_mem_listText c inList
      · obtain rfl := List.mem_singleton.mp isComma
        decide
  have bounds : ∀ run ∈ shown, run.1 ≤ run.2 ∧ run.2 < nmaskbits :=
    fun run member => isRuns.bounds run (List.mem_append_left _ member)
  obtain ⟨status, after, returned, -, isUnion⟩ :=
    ensures_bitmapParselist_items bound target isItems bounds nonzero
      stores
  rw [returned.ensures_iff]
  intro result
  obtain ⟨run, others, rfl⟩ := List.exists_cons_of_ne_nil someMissing
  have runBounds := isRuns.bounds run (by simp)
  have below : run.1 < nmaskbits := by
    omega
  have isSet : mask.longs.bit maskp run.1 = true :=
    (isRuns.set_iff (Nat.zero_le _) below).mpr
      ⟨run, by simp, le_rfl, runBounds.1⟩
  have inWords : run.1 < bitsToLongs nmaskbits * 64 := by
    simp only [bitsToLongs]
    omega
  rw [← result.2 run.1 below, isUnion run.1 inWords] at isSet
  obtain ⟨earlier, member, -, toLast⟩ := isSet
  have before := isRuns.ascending earlier member
  omega

/-- There is a run if and only if a bit is set. -/
theorem exists_set_iff
    (isRuns : Runs (mask.longs.bit maskp) nmaskbits 0 list) :
    (∃ index < nmaskbits, mask.longs.bit maskp index = true) ↔
      list ≠ [] := by
  constructor
  · intro isSet
    obtain ⟨index, below, isSet⟩ := isSet
    obtain ⟨run, member, -⟩ :=
      (isRuns.set_iff (Nat.zero_le _) below).mp isSet
    exact List.ne_nil_of_mem member
  · intro nonempty
    obtain ⟨run, rest, rfl⟩ := List.exists_cons_of_ne_nil nonempty
    have bounds := isRuns.bounds run (by simp)
    have below : run.1 < nmaskbits := by
      omega
    exact ⟨run.1, below, (isRuns.set_iff (Nat.zero_le _) below).mpr
      ⟨run, by simp, le_rfl, bounds.1⟩⟩

/-- The empty list is printed, but it is not accepted. -/
theorem not_roundTrips_of_empty
    (bound : nmaskbits < 2 ^ 31)
    (source : mask.longs.Mapped maskp (bitsToLongs nmaskbits))
    (target : mask.longs.Mapped dst (bitsToLongs nmaskbits))
    (room : mask.chars.Mapped buf buflen.toNat)
    (positive : 1 ≤ buflen.toNat)
    (isRuns : Runs (mask.longs.bit maskp) nmaskbits 0 []) :
    ¬RoundTrips mask buf buflen maskp nmaskbits dst := by
  intro roundTrips
  obtain ⟨len, printed, returned, accepted⟩ := roundTrips
  have outcome :=
    (ensures_bitmapSnlistprintf positive source room isRuns
      (by simp)).of_returns returned
  obtain ⟨-, -, sameLongs, string, -⟩ := outcome
  rw [← sameLongs] at target
  obtain ⟨status, after, parsed, isZero, -⟩ := accepted
  have verdict :=
    (ensures_bitmapParselist bound target
      (by simpa [listText, joined] using string : printed.chars.Stores buf
        ([] ++ [0])) (by simp)).of_returns parsed
  obtain ⟨-, -, ⟨-, items, isItems, -⟩ | ⟨isError, -⟩⟩ := verdict
  · exact not_items_nil isItems
  · rcases isError with isError | isError <;>
      exact absurd (isZero.symm.trans isError) (by decide)

/--
A bitmap is printed as a list that is accepted as the same bits, if and only if
some bit is set and the last run starts at an offset that is a number of type
`int`.
-/
theorem bitmapSnlistprintf_bitmapParselist_iff
    (bound : nmaskbits < 2 ^ 31)
    (source : mask.longs.Mapped maskp (bitsToLongs nmaskbits))
    (target : mask.longs.Mapped dst (bitsToLongs nmaskbits))
    (room : mask.chars.Mapped buf buflen.toNat)
    (fits :
      (listText (runs (mask.longs.bit maskp) nmaskbits)).length <
        buflen.toNat) :
    RoundTrips mask buf buflen maskp nmaskbits dst ↔
      (∃ index < nmaskbits, mask.longs.bit maskp index = true) ∧
        listOffset (runs (mask.longs.bit maskp) nmaskbits) < 2 ^ 31 := by
  have isRuns :
      Runs (mask.longs.bit maskp) nmaskbits 0
        (runs (mask.longs.bit maskp) nmaskbits) :=
    Runs.of_runs
  rw [exists_set_iff isRuns]
  generalize runs (mask.longs.bit maskp) nmaskbits = list at isRuns fits ⊢
  constructor
  · intro roundTrips
    have nonempty : list ≠ [] := by
      rintro rfl
      exact not_roundTrips_of_empty bound source target room (by omega)
        isRuns roundTrips
    refine ⟨nonempty, ?_⟩
    by_contra overflow
    obtain ⟨len, printed, returned, accepted⟩ := roundTrips
    obtain ⟨sameLongs, string, isCut, stores⟩ :=
      cut_of_overflow source room isRuns nonempty fits
        (not_lt.mp overflow) returned
    rw [← sameLongs] at target
    exact isCut.not_accepted bound target isRuns stores accepted
  · intro condition
    obtain ⟨nonempty, small⟩ := condition
    refine (ensures_bitmapSnlistprintf (by omega) source room isRuns
      fun _ => ⟨small, .inl fits⟩).weaken ?_
    intro len printed result
    obtain ⟨-, -, sameLongs, string, -⟩ := result
    rw [List.take_of_length_le (by omega)] at string
    rw [← sameLongs] at target
    refine (ensures_bitmapParselist_listText bound target isRuns nonempty
      string).weaken ?_
    intro status after accepted
    refine ⟨accepted.1, fun index below => ?_⟩
    have inWords : index < bitsToLongs nmaskbits * 64 := by
      simp only [bitsToLongs]
      omega
    rw [accepted.2 index inWords, decide_eq_true below, Bool.true_and]

/-- A bitmap of one word, and a buffer. -/
def wordAndBuffer (word : BitVec 64) : CMemory where
  longs := .ofList [word, 0]
  chars := .ofList (List.replicate 16 0)

/-- A bitmap with the bits 1, 2 and 7 is read back. -/
theorem bitmapSnlistprintf_bitmapParselist_of_sample :
    RoundTrips (wordAndBuffer 0x86) 0 16 0 8 1 := by
  have all : (wordAndBuffer 0x86).longs.Mapped 0 2 :=
    Region.mapped_ofList le_rfl
  have target : (wordAndBuffer 0x86).longs.Mapped 1 (bitsToLongs 8) :=
    all.drop (by decide : 1 + 1 ≤ 2)
  have isList :
      runs ((wordAndBuffer 0x86).longs.bit 0) 8 = [(1, 2), (7, 7)] := by
    decide +kernel
  refine (bitmapSnlistprintf_bitmapParselist_iff (by decide)
    (all.mono (by decide)) target (Region.mapped_ofList (by simp)) ?_).mpr
      ⟨⟨1, by decide, by decide⟩, ?_⟩
  · rw [isList]
    decide +kernel
  · rw [isList]
    decide +kernel

/-- A bitmap without a set bit is printed as a text that is not accepted. -/
theorem emptyList_not_accepted :
    ¬RoundTrips (wordAndBuffer 0) 0 16 0 8 1 := by
  have all : (wordAndBuffer 0).longs.Mapped 0 2 :=
    Region.mapped_ofList le_rfl
  have target : (wordAndBuffer 0).longs.Mapped 1 (bitsToLongs 8) :=
    all.drop (by decide : 1 + 1 ≤ 2)
  refine not_roundTrips_of_empty (by decide) (all.mono (by decide)) target
    (Region.mapped_ofList (by simp)) (by decide) (.none ?_)
  have isClear : ∀ index < 8, (wordAndBuffer 0).longs.bit 0 index = false := by
    decide
  exact fun index _ below => isClear index below

end LibKern.Bitmap
