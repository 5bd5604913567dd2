import LibKern.BitmapListPrint

namespace LibKern.Bitmap

/-!
# Normalising lists of bits

A list that `bitmap_parselist` accepts is printed by `bitmap_snlistprintf` as
the canonical list of the same bits.  The canonical list may be longer than
`INT_MAX`; then the counter of the printed characters becomes negative.
-/

open Program

section Overflow

variable {before memory : CMemory}
variable {buf maskp : Int}
variable {buflen len : BitVec 32}
variable {nmaskbits start : Nat}
variable {printed text : List Byte}
variable {list : List (Nat × Nat)}

/-- A length that is negative as an `int`. -/
private theorem toInt_of_large
    (large : 2 ^ 31 ≤ len.toNat) :
    len.toInt = len.toNat - 2 ^ 32 := by
  rw [BitVec.toInt_eq_toNat_cond, if_neg (by omega)]
  norm_num

/-- After the counter has become negative, the buffer is not written. -/
theorem permits_listRanges_negative
    (mapped : memory.longs.Mapped maskp (bitsToLongs nmaskbits))
    (isRuns : Runs (memory.longs.bit maskp) nmaskbits start list)
    (large : 2 ^ 31 ≤ len.toNat)
    (bound :
      len.toNat + (separated [ascii ','] (list.map rangeText)).length <
        2 ^ 32) :
    (loop (listRange buf buflen maskp nmaskbits)
      ⟨nextStart nmaskbits list, nextStart nmaskbits list, len⟩).Permits
        memory fun _ after =>
          after.longs = memory.longs ∧
            ∀ address, buf ≤ address →
              after.chars.cell address = memory.chars.cell address := by
  induction list generalizing start memory len with
  | nil =>
      rw [nextStart, permits_listRange_end]
      exact ⟨rfl, fun _ _ => rfl⟩
  | cons run rest inductionHypothesis =>
      obtain ⟨first, last⟩ := run
      have negative := toInt_of_large large
      rw [List.map_cons, separated] at bound
      simp only [List.length_append, List.length_singleton] at bound
      rw [nextStart, permits_listRange_run mapped isRuns,
        permits_bscnlEmit_iff, if_neg (by omega), permits_pure]
      refine (permits_emitPiece _).weaken ?_
      intro result after emitted
      obtain ⟨rfl, sameLongs, -, same⟩ := emitted
      have length :
          (len + .ofNat 32 (rangeText (first, last)).length).toNat =
            len.toNat + (rangeText (first, last)).length := by
        rw [BitVec.toNat_add, BitVec.toNat_ofNat]
        omega
      have following := isRuns.tail
      rw [← sameLongs] at following mapped
      refine (inductionHypothesis mapped following (by omega)
        (by omega)).weaken ?_
      intro _ final unchanged
      refine ⟨unchanged.1.trans sameLongs, fun address inside => ?_⟩
      rw [unchanged.2 address inside, same address (.inr (by omega))]

/-- A string in the buffer is not overwritten any more. -/
private theorem permits_listRanges_kept
    {string : List Byte}
    (mapped : memory.longs.Mapped maskp (bitsToLongs nmaskbits))
    (isRuns : Runs (memory.longs.bit maskp) nmaskbits start list)
    (large : 2 ^ 31 ≤ printed.length)
    (bound :
      (printed ++ separated [ascii ','] (list.map rangeText)).length <
        2 ^ 32)
    (stores : memory.chars.Stores buf string) :
    (loop (listRange buf buflen maskp nmaskbits)
      ⟨nextStart nmaskbits list, nextStart nmaskbits list,
        .ofNat 32 printed.length⟩).Permits memory fun _ after =>
          after.longs = memory.longs ∧ after.chars.Stores buf string := by
  rw [List.length_append] at bound
  have isLength :
      (BitVec.ofNat 32 printed.length).toNat = printed.length := by
    rw [BitVec.toNat_ofNat]
    omega
  refine (permits_listRanges_negative mapped isRuns (by omega)
    (by omega)).weaken ?_
  intro _ after unchanged
  refine ⟨unchanged.1, fun index item atIndex => ?_⟩
  rw [unchanged.2 _ (by omega)]
  exact stores index item atIndex

/-- Neither is it when the counter is negative for the next run. -/
private theorem permits_emitPiece_kept
    {run : Nat × Nat}
    (mapped : memory.longs.Mapped maskp (bitsToLongs nmaskbits))
    (isRuns : Runs (memory.longs.bit maskp) nmaskbits start list)
    (large : 2 ^ 31 ≤ printed.length)
    (bound :
      (printed ++ rangeText run ++
        separated [ascii ','] (list.map rangeText)).length < 2 ^ 32)
    (stores : memory.chars.Stores buf (printed ++ [0])) :
    (emitPiece buf buflen (rangeText run)
      (.ofNat 32 printed.length)).Permits memory fun len between =>
        (loop (listRange buf buflen maskp nmaskbits)
          ⟨nextStart nmaskbits list, nextStart nmaskbits list,
            len⟩).Permits between fun _ after =>
              after.longs = memory.longs ∧
                after.chars.Stores buf (printed ++ [0]) := by
  have isRange := List.length_pos_iff.mpr (rangeText_ne_nil run)
  have bounded := bound
  simp only [List.length_append] at bounded
  have isLength :
      (BitVec.ofNat 32 printed.length).toNat = printed.length := by
    rw [BitVec.toNat_ofNat]
    omega
  have negative := toInt_of_large (large.trans_eq isLength.symm)
  refine (permits_emitPiece _).weaken ?_
  intro result between emitted
  obtain ⟨rfl, sameLongs, -, same⟩ := emitted
  have stillStores : between.chars.Stores buf (printed ++ [0]) := by
    intro index item atIndex
    rw [same _ (.inr (by omega))]
    exact stores index item atIndex
  rw [← sameLongs] at isRuns mapped
  rw [← BitVec.ofNat_add, ← List.length_append]
  refine (permits_listRanges_kept mapped isRuns ?_ bound
    stillStores).weaken ?_
  · rw [List.length_append]
    omega
  · intro _ after kept
    exact ⟨kept.1.trans sameLongs, kept.2⟩

/-- Some but not all of the runs are in a string. -/
def Cut (list : List (Nat × Nat)) (string : List Byte) : Prop :=
  ∃ shown missing,
    list = shown ++ missing ∧ shown ≠ [] ∧ missing ≠ [] ∧
      (string = listText shown ∨ string = listText shown ++ [ascii ','])

/-- Two parts of a canonical list. -/
theorem listText_append
    {shown missing : List (Nat × Nat)}
    (someShown : shown ≠ [])
    (someMissing : missing ≠ []) :
    listText (shown ++ missing) =
      listText shown ++ ascii ',' :: listText missing := by
  induction shown with
  | nil =>
      exact absurd rfl someShown
  | cons run rest inductionHypothesis =>
      cases rest with
      | nil =>
          simp [listText, joined_cons, someMissing]
      | cons next others =>
          have following := inductionHypothesis (by simp)
          simp only [listText, List.map_append, List.map_cons,
            List.cons_append] at following ⊢
          rw [joined_cons (rangeText run) (by simp),
            joined_cons (rangeText run) (by simp), following,
            List.append_assoc, List.cons_append]

/-- A run is added to the canonical list. -/
theorem listText_concat
    (shown : List (Nat × Nat))
    (run : Nat × Nat) :
    listText (shown ++ [run]) =
      listText shown ++ sepAfter (listText shown) ++ rangeText run := by
  by_cases isEmpty : shown = []
  · simp [isEmpty, listText, joined, sepAfter]
  · rw [listText_append isEmpty (by simp), sepAfter,
      if_neg (listText_ne_nil isEmpty)]
    simp [listText]

/-- A string without some of the runs is too short. -/
theorem Cut.length_lt
    {string : List Byte}
    (isCut : Cut list string) :
    string.length < (listText list).length := by
  obtain ⟨shown, missing, rfl, someShown, someMissing, isString⟩ := isCut
  have someText :=
    List.length_pos_iff.mpr (listText_ne_nil someMissing)
  rw [listText_append someShown someMissing, List.length_append,
    List.length_cons]
  rcases isString with rfl | rfl
  · omega
  · rw [List.length_append, List.length_singleton]
    omega

/--
If the last run starts where the counter is negative, then the buffer holds a
string without this run.
-/
theorem permits_listRanges_overflow
    (shown : List (Nat × Nat))
    (positive : 1 ≤ buflen.toNat)
    (mapped : before.longs.Mapped maskp (bitsToLongs nmaskbits))
    (isRuns : Runs (before.longs.bit maskp) nmaskbits start list)
    (isPrinted : Printed before buf buflen.toNat printed memory)
    (isShown : printed = listText shown)
    (isText :
      text =
        printed ++ separated (sepAfter printed) (list.map rangeText))
    (fits : text.length < buflen.toNat)
    (small : printed.length < 2 ^ 31)
    (nonempty : list ≠ [])
    (overflow :
      2 ^ 31 ≤
        printed.length +
          lastStart (sepAfter printed) (list.map rangeText)) :
    (loop (listRange buf buflen maskp nmaskbits)
      ⟨nextStart nmaskbits list, nextStart nmaskbits list,
        .ofNat 32 printed.length⟩).Permits memory fun _ after =>
          after.longs = before.longs ∧
            ∃ string,
              Cut (shown ++ list) string ∧
                after.chars.Stores buf (string ++ [0]) := by
  induction list generalizing start printed memory shown with
  | nil =>
      exact absurd rfl nonempty
  | cons run rest inductionHypothesis =>
      obtain ⟨first, last⟩ := run
      have hereRuns := isRuns
      have hereMapped := mapped
      rw [← isPrinted.sameLongs] at hereRuns hereMapped
      have bufferBound := buflen.isLt
      rw [separated_sepAfter] at isText
      have commaText := isText
      rw [sepAfter_append _ (rangeText_ne_nil _)] at commaText
      have length := congrArg List.length isText
      simp only [List.length_append] at length
      have isRange := List.length_pos_iff.mpr (rangeText_ne_nil (first, last))
      rw [nextStart, permits_listRange_run hereMapped hereRuns,
        permits_bscnlEmit_iff]
      have commaRoom :
          ListRoom buflen printed.length text.length :=
        ⟨small, .inl fits⟩
      refine ((ensures_emitComma positive isPrinted commaRoom le_rfl
        (by rw [List.length_append]; omega)).permits).weaken ?_
      intro len between result
      obtain ⟨rfl, stillPrinted, -⟩ := result
      by_cases large :
          2 ^ 31 ≤ (printed ++ sepAfter printed).length
      · have notEmpty : printed ≠ [] := by
          rintro rfl
          simp [sepAfter] at large
        have isComma : sepAfter printed = [ascii ','] := if_neg notEmpty
        have stores :=
          stillPrinted.string (by simp [notEmpty])
            (by rw [List.length_append]; omega)
        have following := isRuns.tail
        rw [← stillPrinted.sameLongs] at following mapped
        refine (permits_emitPiece_kept mapped following large ?_
          stores).weaken ?_
        · rw [← commaText]
          omega
        · intro len after kept
          refine kept.weaken ?_
          intro _ final result
          obtain ⟨finallySame, finallyStores⟩ := result
          refine ⟨finallySame.trans stillPrinted.sameLongs, _,
            ⟨shown, (first, last) :: rest, rfl, ?_, by simp, .inr rfl⟩,
            ?_⟩
          · rintro rfl
            exact notEmpty isShown
          · rwa [isComma, isShown] at finallyStores
      · refine ((ensures_emitPiece positive stillPrinted
          ⟨not_le.mp large, .inl fits⟩ le_rfl
          (by simp only [List.length_append]; omega)).permits).weaken ?_
        intro len after result
        obtain ⟨rfl, finallyPrinted, -⟩ := result
        have someRest : rest ≠ [] := by
          rintro rfl
          rw [List.map_singleton, lastStart, ← List.length_append]
            at overflow
          omega
        have nextShown :
            printed ++ sepAfter printed ++ rangeText (first, last) =
              listText (shown ++ [(first, last)]) := by
          rw [listText_concat, ← isShown]
        have together :
            shown ++ (first, last) :: rest =
              shown ++ [(first, last)] ++ rest := by
          simp
        rw [together]
        by_cases stillSmall :
            (printed ++ sepAfter printed ++
              rangeText (first, last)).length < 2 ^ 31
        · refine inductionHypothesis _ isRuns.tail finallyPrinted nextShown
            isText stillSmall someRest ?_
          rw [List.map_cons, lastStart_cons _ _ (by simpa using someRest),
            ← Nat.add_assoc, ← List.length_append, ← List.append_assoc]
            at overflow
          rwa [sepAfter_append _ (rangeText_ne_nil _)]
        · have stores :=
            finallyPrinted.string (by simp [rangeText_ne_nil]) (by
              simp only [List.length_append]
              omega)
          have following := isRuns.tail
          rw [← finallyPrinted.sameLongs] at following mapped
          refine (permits_listRanges_kept mapped following
            (not_lt.mp stillSmall) ?_ stores).weaken ?_
          · rw [← commaText]
            omega
          · intro _ final result
            obtain ⟨finallySame, finallyStores⟩ := result
            refine ⟨finallySame.trans finallyPrinted.sameLongs, _,
              ⟨shown ++ [(first, last)], rest, rfl, by simp, someRest,
                .inl rfl⟩, ?_⟩
            rwa [nextShown] at finallyStores

end Overflow

section Normalise

variable {memory mask : CMemory}
variable {buf maskp dst bp : Int}
variable {buflen : BitVec 32}
variable {nmaskbits : Nat}
variable {text : List Byte}
variable {list : List (Nat × Nat)}

/-- The canonical list contains no null character. -/
theorem ne_zero_of_mem_listText :
    ∀ c ∈ listText list, c ≠ 0 := by
  have digitNonzero
      (number : Nat)
      (c : Byte)
      (isDigit : c ∈ numeral 10 number) :
      c ≠ 0 := by
    have isXDigit :=
      isxdigit_of_isdigit ((digits_numeral number).decimal c isDigit)
    exact (isxdigit_separate c isXDigit).2.2
  have rangeNonzero
      (run : Nat × Nat)
      (c : Byte)
      (isMember : c ∈ rangeText run) :
      c ≠ 0 := by
    rw [rangeText] at isMember
    split at isMember
    · exact digitNonzero _ c isMember
    · simp only [List.mem_append, List.mem_singleton] at isMember
      rcases isMember with (inFirst | rfl) | inLast
      · exact digitNonzero _ c inFirst
      · decide
      · exact digitNonzero _ c inLast
  induction list with
  | nil =>
      simp [listText, joined]
  | cons run rest inductionHypothesis =>
      rw [listText, List.map_cons]
      cases rest with
      | nil =>
          simpa using rangeNonzero run
      | cons next others =>
          intro c isMember
          rw [joined_cons _ (by simp), List.mem_append,
            List.mem_cons] at isMember
          rcases isMember with inRange | rfl | inRest
          · exact rangeNonzero run c inRange
          · decide
          · exact inductionHypothesis c inRest

/--
The canonical list of a bitmap is printed, and it is read back as the same
bitmap.
-/
def Normalises
    (mask : CMemory)
    (buf : Int)
    (buflen : BitVec 32)
    (maskp : Int)
    (nmaskbits : Nat)
    (dst : Int) : Prop :=
  ∃ list,
    Runs (mask.longs.bit maskp) nmaskbits 0 list ∧
      (bitmapSnlistprintf buf buflen maskp nmaskbits).Ensures mask
        fun _ printed =>
          printed.chars.Stores buf (listText list ++ [0]) ∧
            (bitmapParselist dst nmaskbits buf).Ensures printed
              fun status after =>
                status = 0 ∧
                  ∀ index < bitsToLongs nmaskbits * 64,
                    after.longs.bit dst index =
                      mask.longs.bit maskp index

/-- A text with runs is read back as the bits of these runs. -/
theorem ensures_bitmapParselist_items
    (bound : nmaskbits < 2 ^ 31)
    (mapped : memory.longs.Mapped dst (bitsToLongs nmaskbits))
    (isItems : Items text list)
    (bounds : ∀ run ∈ list, run.1 ≤ run.2 ∧ run.2 < nmaskbits)
    (nonzero : ∀ c ∈ text, c ≠ 0)
    (stores : memory.chars.Stores buf (text ++ [0])) :
    (bitmapParselist dst nmaskbits buf).Ensures memory
      fun status after =>
        status = 0 ∧
          ∀ index < bitsToLongs nmaskbits * 64,
            after.longs.bit dst index = true ↔
              ∃ run ∈ list, run.1 ≤ index ∧ index ≤ run.2 := by
  have fits := Valid.fits bound bounds
  refine (ensures_bitmapParselist bound mapped stores nonzero).weaken ?_
  intro status after verdict
  obtain ⟨-, -, ⟨accepted, items, otherItems, -, union⟩ | ⟨-, none⟩⟩ :=
    verdict
  · obtain rfl := isItems.unique otherItems
    refine ⟨accepted, fun index inside => ?_⟩
    rw [union index inside,
      exists_truncated_iff fun item isMember => (fits item isMember).2]
  · exact absurd (fun item isMember => (fits item isMember).1)
      (none list isItems)

/-- The canonical list is read back. -/
theorem ensures_bitmapParselist_listText
    (bound : nmaskbits < 2 ^ 31)
    (mapped : memory.longs.Mapped dst (bitsToLongs nmaskbits))
    (isRuns : Runs (mask.longs.bit maskp) nmaskbits 0 list)
    (nonempty : list ≠ [])
    (stores : memory.chars.Stores buf (listText list ++ [0])) :
    (bitmapParselist dst nmaskbits buf).Ensures memory
      fun status after =>
        status = 0 ∧
          ∀ index < bitsToLongs nmaskbits * 64,
            after.longs.bit dst index =
              (decide (index < nmaskbits) &&
                mask.longs.bit maskp index) := by
  refine (ensures_bitmapParselist_items bound mapped
    (items_listText nonempty) isRuns.bounds ne_zero_of_mem_listText
    stores).weaken ?_
  intro status after result
  refine ⟨result.1, fun index inside => Bool.eq_iff_iff.mpr ?_⟩
  rw [result.2 index inside, Bool.and_eq_true, decide_eq_true_eq]
  constructor
  · intro isIn
    obtain ⟨run, isMember, fromFirst, toLast⟩ := isIn
    have bounded := isRuns.bounds run isMember
    have used : index < nmaskbits := by
      omega
    exact ⟨used, (isRuns.set_iff (Nat.zero_le _) used).mpr
      ⟨run, isMember, fromFirst, toLast⟩⟩
  · intro isSet
    exact (isRuns.set_iff (Nat.zero_le _) isSet.1).mp isSet.2

/-- A list that is too long leaves a string without its last run. -/
theorem cut_of_overflow
    {printed : CMemory}
    {len : BitVec 32}
    (source : mask.longs.Mapped maskp (bitsToLongs nmaskbits))
    (room : mask.chars.Mapped buf buflen.toNat)
    (isRuns : Runs (mask.longs.bit maskp) nmaskbits 0 list)
    (nonempty : list ≠ [])
    (fits : (listText list).length < buflen.toNat)
    (overflow : 2 ^ 31 ≤ listOffset list)
    (returned :
      (bitmapSnlistprintf buf buflen maskp nmaskbits).Returns mask len
        printed) :
    printed.longs = mask.longs ∧
      ∃ string,
        Cut list string ∧ printed.chars.Stores buf (string ++ [0]) := by
  have permitted :=
    (permits_bitmapSnlistprintf_iff (by omega) source room isRuns).mpr
      (permits_listRanges_overflow [] (by omega) source isRuns
        (printed_empty (by omega) room) rfl
        ((listText_eq nonempty).trans (List.nil_append _).symm) fits
        (by simp) nonempty
        (by simpa [sepAfter, listOffset] using overflow))
  exact permitted _ _ returned

/-- When the canonical list of a bitmap is printed correctly. -/
theorem normalises_iff
    (bound : nmaskbits < 2 ^ 31)
    (source : mask.longs.Mapped maskp (bitsToLongs nmaskbits))
    (target : mask.longs.Mapped dst (bitsToLongs nmaskbits))
    (room : mask.chars.Mapped buf buflen.toNat)
    (isRuns : Runs (mask.longs.bit maskp) nmaskbits 0 list)
    (nonempty : list ≠ [])
    (unused :
      ∀ index < bitsToLongs nmaskbits * 64, nmaskbits ≤ index →
        mask.longs.bit maskp index = false)
    (fits : (listText list).length < buflen.toNat) :
    Normalises mask buf buflen maskp nmaskbits dst ↔
      listOffset list < 2 ^ 31 := by
  constructor
  · intro normalises
    obtain ⟨others, otherRuns, _, printed, returned, stores, -⟩ :=
      normalises
    obtain rfl := isRuns.unique otherRuns
    by_contra overflow
    obtain ⟨-, string, isCut, isStored⟩ :=
      cut_of_overflow source room isRuns nonempty fits
        (not_lt.mp overflow) returned
    have inside := isCut.length_lt
    have isNull : printed.chars.cell (buf + string.length) = some 0 :=
      isStored.of_append_right.head
    have atPosition :=
      stores.of_append string.length (listText list)[string.length]
        (by simp)
    rw [isNull] at atPosition
    exact ne_zero_of_mem_listText _ (List.getElem_mem inside)
      (Option.some.inj atPosition).symm
  · intro small
    refine ⟨list, isRuns, ?_⟩
    refine (ensures_bitmapSnlistprintf (by omega) source room isRuns
      fun _ => ⟨small, .inl fits⟩).weaken ?_
    intro len printed result
    obtain ⟨-, -, sameLongs, string, -⟩ := result
    rw [List.take_of_length_le (by omega)] at string
    rw [← sameLongs] at target
    refine ⟨string, (ensures_bitmapParselist_listText bound target isRuns
      nonempty string).weaken ?_⟩
    intro status after result
    refine ⟨result.1, fun index inside => ?_⟩
    rw [result.2 index inside]
    by_cases used : index < nmaskbits
    · simp [used]
    · simp [used, unused index inside (by omega)]

/-- A text has at least one item. -/
theorem Items.ne_nil
    {items : List (Nat × Nat)}
    (isItems : Items text items) :
    items ≠ [] := by
  cases isItems <;> simp

/--
An accepted list is normalised, if and only if the last run of its canonical
list starts at an offset that is a number of type `int`.
-/
theorem bitmapParselist_normalises_iff
    (bound : nmaskbits < 2 ^ 31)
    (source : memory.longs.Mapped maskp (bitsToLongs nmaskbits))
    (stores : memory.chars.Stores bp (text ++ [0]))
    (nonzero : ∀ c ∈ text, c ≠ 0)
    (accepted :
      (bitmapParselist maskp nmaskbits bp).Returns memory 0 mask)
    (target : mask.longs.Mapped dst (bitsToLongs nmaskbits))
    (room : mask.chars.Mapped buf buflen.toNat)
    (fits :
      (listText (runs (mask.longs.bit maskp) nmaskbits)).length <
        buflen.toNat) :
    Normalises mask buf buflen maskp nmaskbits dst ↔
      listOffset (runs (mask.longs.bit maskp) nmaskbits) < 2 ^ 31 := by
  have verdict :=
    (ensures_bitmapParselist bound source stores nonzero).of_returns
      accepted
  obtain ⟨-, mapped, ⟨-, items, isItems, allFit, union⟩ | ⟨isError, -⟩⟩ :=
    verdict
  · have inside
        {index : Nat}
        (below : index < nmaskbits) :
        index < bitsToLongs nmaskbits * 64 := by
      simp only [bitsToLongs]
      omega
    refine normalises_iff bound mapped target room Runs.of_runs ?_ ?_ fits
    · intro noRuns
      obtain ⟨item, others, rfl⟩ :=
        List.exists_cons_of_ne_nil isItems.ne_nil
      obtain ⟨ordered, below⟩ := allFit item (by simp)
      have isSet :=
        (union _ (inside below)).mpr ⟨item, by simp, ordered, le_rfl⟩
      obtain ⟨run, isRun, -⟩ :=
        (Runs.of_runs.set_iff (Nat.zero_le _) below).mp isSet
      rw [noRuns] at isRun
      simp at isRun
    · intro index below unused
      rw [← Bool.not_eq_true, union index below]
      intro isIn
      obtain ⟨item, isMember, -, toLast⟩ := isIn
      have fitsItem := (allFit item isMember).2
      omega
  · rcases isError with isError | isError <;>
      exact absurd isError (by decide)

/-- A memory with a bitmap of one word, the list `3,1-2`, and a buffer. -/
def unorderedMemory : CMemory where
  longs := .ofList [0]
  chars :=
    .ofList ("3,1-2".toList.map ascii ++ [0] ++ List.replicate 26 0)

/-- The list `3,1-2` is normalised to `1-3`. -/
theorem bitmapParselist_normalises_of_sample :
    ∃ mask,
      (bitmapParselist 0 8 0).Returns unorderedMemory 0 mask ∧
        runs (mask.longs.bit 0) 8 = [(1, 3)] ∧
        Normalises mask 16 16 0 8 0 := by
  have executed :
      ((bitmapParselist 0 8 0).exec 10 unorderedMemory).map
        (fun result =>
          (result.1, runs (result.2.longs.bit 0) 8,
            (result.2.longs.cell 0).isSome,
            (List.range 16).all fun index =>
              (result.2.chars.cell (16 + index)).isSome)) =
        some (0, [(1, 3)], true, true) := by
    decide +kernel
  obtain ⟨⟨status, mask⟩, returned, isResult⟩ :=
    Option.map_eq_some_iff.mp executed
  simp only [Prod.mk.injEq, List.all_eq_true, List.mem_range,
    Option.isSome_iff_exists] at isResult
  obtain ⟨rfl, isRuns, isWord, isMapped⟩ := isResult
  have stores :
      unorderedMemory.chars.Stores 0
        ("3,1-2".toList.map ascii ++ [0]) :=
    (Region.stores_ofList _).of_append
  have room : mask.chars.Mapped 16 (16 : BitVec 32).toNat := isMapped
  refine ⟨mask, ⟨10, returned⟩, isRuns, ?_⟩
  refine (bitmapParselist_normalises_iff (by decide)
    (Region.mapped_ofList (by decide)) stores (by decide +kernel)
    ⟨10, returned⟩ ?_ room ?_).mpr ?_
  · intro index below
    obtain rfl : index = 0 := Nat.lt_one_iff.mp below
    exact isWord
  · rw [isRuns]
    decide +kernel
  · rw [isRuns]
    decide

end Normalise

section LongList

/-- Every other bit from one billion on. -/
def longList (count : Nat) : List (Nat × Nat) :=
  (List.range count).map fun index =>
    (10 ^ 9 + 2 * index, 10 ^ 9 + 2 * index)

/-- A memory with a bitmap, a long list, and a buffer. -/
def longMemory (words space count : Nat) : CMemory where
  longs := .ofList (List.replicate words 0)
  chars :=
    .ofList (listText (longList count) ++ [0] ++ List.replicate space 0)

variable {count : Nat}

/-- The numbers of the long list have ten digits. -/
theorem length_of_mem_longList
    (bound : count ≤ 2 * 10 ^ 8)
    {text : List Byte}
    (isMember : text ∈ (longList count).map rangeText) :
    text.length = 10 := by
  simp only [longList, List.map_map, List.mem_map, List.mem_range]
    at isMember
  obtain ⟨index, below, rfl⟩ := isMember
  have nonzero : 10 ^ 9 + 2 * index ≠ 0 := by
    omega
  have atMost :=
    (Nat.digits_length_le_iff (b := 10) (k := 10) (by omega)
      (10 ^ 9 + 2 * index)).mpr (by omega)
  have atLeast :=
    (Nat.lt_digits_length_iff (b := 10) (k := 9) (by omega)
      (10 ^ 9 + 2 * index)).mpr (by omega)
  simp only [Function.comp_apply, rangeText, ↓reduceIte, numeral, nonzero,
    List.length_map, List.length_reverse]
  omega

/-- The lengths of texts of ten characters each. -/
theorem length_separated_of_ten
    {items : List (List Byte)}
    (sep : List Byte)
    (isTen : ∀ item ∈ items, item.length = 10)
    (nonempty : items ≠ []) :
    (separated sep items).length + 1 = sep.length + 11 * items.length ∧
      lastStart sep items + 11 = sep.length + 11 * items.length := by
  induction items generalizing sep with
  | nil =>
      exact absurd rfl nonempty
  | cons item rest inductionHypothesis =>
      rw [List.forall_mem_cons] at isTen
      cases rest with
      | nil =>
          simp [separated, lastStart, isTen.1]
      | cons next others =>
          obtain ⟨length, start⟩ :=
            inductionHypothesis [ascii ','] isTen.2 (by simp)
          rw [separated, lastStart_cons _ _ (by simp)]
          simp only [List.length_append, List.length_cons,
            List.length_nil, isTen.1] at length start ⊢
          omega

/-- The long list is accepted, but it is not normalised. -/
theorem longList_not_normalised
    {nmaskbits words space : Nat}
    {buflen : BitVec 32}
    (bound : count ≤ 2 * 10 ^ 8)
    (enough : 2 ^ 31 + 11 ≤ 11 * count)
    (bits : nmaskbits < 2 ^ 31)
    (inside : 10 ^ 9 + 2 * count ≤ nmaskbits)
    (enoughWords : bitsToLongs nmaskbits ≤ words)
    (enoughSpace : buflen.toNat ≤ space)
    (fits : 11 * count ≤ buflen.toNat) :
    ∃ mask,
      (bitmapParselist 0 nmaskbits 0).Returns
          (longMemory words space count) 0 mask ∧
        runs (mask.longs.bit 0) nmaskbits = longList count ∧
        (listText (longList count)).length < buflen.toNat ∧
        ¬Normalises mask ((listText (longList count)).length + 1) buflen 0
          nmaskbits 0 := by
  have isTen :
      ∀ item ∈ (longList count).map rangeText, item.length = 10 :=
    fun _ isMember => length_of_mem_longList bound isMember
  have isCount : (longList count).length = count := by
    simp [longList]
  have nonempty : longList count ≠ [] :=
    List.length_pos_iff.mp (by omega)
  obtain ⟨length, start⟩ :=
    length_separated_of_ten [] isTen (by simpa using nonempty)
  rw [← listText_eq nonempty, List.length_map, isCount,
    List.length_nil] at length
  rw [← listOffset, List.length_map, isCount, List.length_nil] at start
  have mapped :
      (longMemory words space count).longs.Mapped 0
        (bitsToLongs nmaskbits) :=
    Region.mapped_ofList (by rwa [List.length_replicate])
  have stores :
      (longMemory words space count).chars.Stores 0
        (listText (longList count) ++ [0]) :=
    (Region.stores_ofList _).of_append
  have room :
      (longMemory words space count).chars.Mapped
        ((listText (longList count)).length + 1) buflen.toNat := by
    have all := (Region.stores_ofList
      (listText (longList count) ++ [0] ++
        List.replicate space 0)).of_append_right.mapped
    rw [List.length_replicate, List.length_append, Nat.cast_add,
      zero_add] at all
    exact all.mono enoughSpace
  have valid : Valid nmaskbits (longList count) := by
    intro item isMember
    simp only [longList, List.mem_map, List.mem_range] at isMember
    obtain ⟨index, below, rfl⟩ := isMember
    exact ⟨le_rfl, by dsimp only; omega⟩
  have itemFits := valid.fits bits
  have isItems := items_listText nonempty
  obtain ⟨status, mask, returned, sameChars, stillMapped, verdict⟩ :=
    ensures_bitmapParselist bits mapped stores ne_zero_of_mem_listText
  rcases verdict with ⟨rfl, items, otherItems, -, union⟩ | ⟨-, none⟩
  · obtain rfl := isItems.unique otherItems
    have covers :
        ∀ index < bitsToLongs nmaskbits * 64,
          mask.longs.bit 0 index = true ↔
            ∃ run ∈ longList count, run.1 ≤ index ∧ index ≤ run.2 := by
      intro index below
      rw [union index below,
        exists_truncated_iff fun item isMember =>
          (itemFits item isMember).2]
    have used : nmaskbits ≤ bitsToLongs nmaskbits * 64 := by
      simp only [bitsToLongs]
      omega
    have isRuns :
        Runs (mask.longs.bit 0) nmaskbits 0 (longList count) := by
      refine Runs.of_ranges ?_ ?_ fun index _ below =>
        covers index (below.trans_le used)
      · exact fun run isMember =>
          ⟨Nat.zero_le _, valid run isMember⟩
      · rw [longList, List.pairwise_map]
        refine List.pairwise_lt_range.imp ?_
        intro one other isLess
        dsimp only
        omega
    rw [← sameChars] at room
    refine ⟨mask, returned, Runs.of_runs.unique isRuns, by omega, ?_⟩
    rw [normalises_iff bits stillMapped stillMapped room isRuns nonempty ?_
      (by omega)]
    · omega
    · intro index below unused
      rw [← Bool.not_eq_true, covers index below]
      intro isIn
      obtain ⟨run, isMember, -, toLast⟩ := isIn
      have isInside := (valid run isMember).2
      omega
  · exact absurd (fun item isMember => (itemFits item isMember).1)
      (none _ isItems)

/--
The canonical list of 200 million bits with ten digits each does not fit into
an `int`.
-/
theorem longList_not_normalised_of_sample :
    ∃ mask,
      (bitmapParselist 0 (2 ^ 31 - 1) 0).Returns
          (longMemory (2 ^ 25) (2 ^ 32) (2 * 10 ^ 8)) 0 mask ∧
        runs (mask.longs.bit 0) (2 ^ 31 - 1) = longList (2 * 10 ^ 8) ∧
        (listText (longList (2 * 10 ^ 8))).length <
          (0xffffffff : BitVec 32).toNat ∧
        ¬Normalises mask
          ((listText (longList (2 * 10 ^ 8))).length + 1) 0xffffffff 0
          (2 ^ 31 - 1) 0 :=
  longList_not_normalised le_rfl (by norm_num) (by norm_num)
    (by norm_num) (by norm_num [bitsToLongs]) (by decide) (by decide)

end LongList

end LibKern.Bitmap
