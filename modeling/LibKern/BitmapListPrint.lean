import LibKern.BitRuns
import LibKern.BitmapList
import LibKern.CPrint

namespace LibKern.Bitmap

/-!
# The list of the set bits of a bitmap

`bitmap_snlistprintf` prints the runs of set bits in ascending order.  The
length of what was printed is an `int`: a text that is longer than that is
continued before the buffer.
-/

open Program

section Text

/-- A run as a number or a range of numbers. -/
def rangeText (run : Nat × Nat) : List Byte :=
  if run.1 = run.2 then numeral 10 run.1
  else numeral 10 run.1 ++ [ascii '-'] ++ numeral 10 run.2

/-- The canonical list of runs. -/
def listText (runs : List (Nat × Nat)) : List Byte :=
  joined (runs.map rangeText)

/-- The place in a text where its last item starts. -/
def lastStart : List Byte → List (List Byte) → Nat
  | _, [] => 0
  | sep, [_] => sep.length
  | sep, item :: next :: rest =>
      (sep ++ item).length + lastStart [ascii ','] (next :: rest)

theorem lastStart_cons
    (sep item : List Byte)
    {items : List (List Byte)}
    (nonempty : items ≠ []) :
    lastStart sep (item :: items) =
      (sep ++ item).length + lastStart [ascii ','] items := by
  cases items with
  | nil =>
      exact absurd rfl nonempty
  | cons next rest =>
      rfl

/-- The first item does not start after the last one. -/
theorem length_sep_le_lastStart
    (sep item : List Byte)
    (items : List (List Byte)) :
    sep.length ≤ lastStart sep (item :: items) := by
  cases items with
  | nil =>
      exact le_rfl
  | cons next rest =>
      rw [lastStart_cons _ _ (by simp), List.length_append]
      omega

/-- The last item is a part of the text. -/
theorem lastStart_le_length
    {items : List (List Byte)}
    (sep : List Byte) :
    lastStart sep items ≤ (separated sep items).length := by
  induction items generalizing sep with
  | nil =>
      exact Nat.zero_le _
  | cons item items inductionHypothesis =>
      rw [separated]
      cases items with
      | nil =>
          simp [lastStart]
      | cons next rest =>
          have later := inductionHypothesis [ascii ',']
          rw [lastStart_cons _ _ (by simp)]
          simp only [List.length_append] at later ⊢
          omega

theorem digits_numeral (number : Nat) : Digits (numeral 10 number) where
  nonempty := numeral_ne_nil number
  decimal := by
    intro c isMember
    obtain ⟨digit, bound, rfl⟩ :=
      exists_digitChar_of_mem_numeral (by omega) isMember
    exact isdigit_digitChar bound

theorem decimalNumber_numeral (number : Nat) :
    decimalNumber (numeral 10 number) = number := by
  apply numeralValue_numeral (by omega)
  intro digit bound
  have checked :
      ∀ small : Fin 10, decimalDigit (digitChar small) = small := by
    decide
  exact checked ⟨digit, bound⟩

/-- A run is printed as an item. -/
theorem item_rangeText (run : Nat × Nat) : Item (rangeText run) run := by
  obtain ⟨first, last⟩ := run
  rw [rangeText]
  dsimp only
  split
  · rename_i same
    subst same
    have isItem := Item.number (digits_numeral first)
    rwa [decimalNumber_numeral] at isItem
  · have isItem :=
      Item.range (digits_numeral first) (digits_numeral last)
    rw [decimalNumber_numeral, decimalNumber_numeral] at isItem
    simpa using isItem

/-- The canonical list of runs is a list of items. -/
theorem items_listText
    {runs : List (Nat × Nat)}
    (nonempty : runs ≠ []) :
    Items (listText runs) runs := by
  induction runs with
  | nil =>
      exact absurd rfl nonempty
  | cons run rest inductionHypothesis =>
      rw [listText, List.map_cons]
      cases rest with
      | nil =>
          have isItems := Items.last (item_rangeText run) (.inl rfl)
          simpa using isItems
      | cons next others =>
          rw [joined_cons _ (by simp)]
          exact .more (item_rangeText run) (inductionHypothesis (by simp))

end Text

section Emit

variable {buf : Int} {buflen : BitVec 32}

/-- One of the calls of `snprintf` in `bscnl_emit`. -/
def emitPiece
    (buf : Int)
    (buflen : BitVec 32)
    (text : List Byte)
    (len : BitVec 32) :
    Program CMemory (BitVec 32) := do
  let written ← snprintf (buf + len.toInt) (emitSize buflen len) text
  pure (len + written)

/-- `bscnl_emit` prints a comma, if there is something before, and a run. -/
theorem ensures_bscnlEmit_iff
    {memory : CMemory}
    {rbot rtop : Nat}
    {len : BitVec 32}
    {post : BitVec 32 → CMemory → Prop} :
    (bscnlEmit buf buflen rbot rtop len).Ensures memory post ↔
      (if len.toInt > 0 then emitPiece buf buflen [ascii ','] len
        else pure len).Ensures memory fun len after =>
          (emitPiece buf buflen (rangeText (rbot, rtop)) len).Ensures
            after post := by
  rw [bscnlEmit, rangeText]
  by_cases hasComma : len.toInt > 0 <;> by_cases same : rbot = rtop <;>
    simp only [hasComma, same, ↓reduceIte, emitPiece, ensures_bind,
      ensures_pure]

/-- The size that `bscnl_emit` passes on is large enough. -/
theorem le_emitSize
    {len : Nat}
    (bound : len ≤ buflen.toNat) :
    buflen.toNat - len ≤ emitSize buflen (.ofNat 32 len) ∧
      (buflen.toNat < 2 ^ 31 →
        emitSize buflen (.ofNat 32 len) = buflen.toNat - len) := by
  have isLess := buflen.isLt
  have difference :
      (buflen - BitVec.ofNat 32 len).toNat = buflen.toNat - len := by
    rw [BitVec.toNat_sub, BitVec.toNat_ofNat]
    omega
  rw [emitSize, BitVec.toNat_signExtend, BitVec.toNat_setWidth, difference,
    BitVec.msb_eq_decide, difference]
  constructor
  · omega
  · intro small
    rw [decide_eq_false (by omega)]
    simp
    omega

end Emit

section Runs

variable {memory : CMemory}
variable {buf maskp : Int}
variable {buflen len : BitVec 32}
variable {nmaskbits start cur first last : Nat}
variable {rest list : List (Nat × Nat)}
variable {post : BitVec 32 → CMemory → Prop}

/-- The first bit of the first run, or the size if there is none. -/
def nextStart (size : Nat) : List (Nat × Nat) → Nat
  | [] => size
  | (first, _) :: _ => first

/-- `find_next_bit` finds the next run. -/
theorem firstSet_nextStart
    (isRuns : Runs (memory.longs.bit maskp) nmaskbits start list) :
    FirstSet memory.longs maskp nmaskbits start
      (nextStart nmaskbits list) := by
  cases isRuns with
  | none clear =>
      exact ⟨le_rfl, clear, fun isLess => absurd isLess (lt_irrefl _)⟩
  | run above ordered bound clear set _ _ =>
      exact ⟨by simp only [nextStart]; omega, clear,
        fun _ => ⟨above, set _ le_rfl ordered⟩⟩

/-- The loop of `bitmap_snlistprintf` after the last run. -/
theorem ensures_listRange_end :
    (loop (listRange buf buflen maskp nmaskbits)
        ⟨nmaskbits, nmaskbits, len⟩).Ensures memory post ↔
      post len memory := by
  rw [ensures_loop, listRange, if_neg (lt_irrefl _), ensures_pure]

/-- The loop of `bitmap_snlistprintf` prints one run and finds the next. -/
theorem ensures_listRange_run
    (mapped : memory.longs.Mapped maskp (bitsToLongs nmaskbits))
    (isRuns :
      Runs (memory.longs.bit maskp) nmaskbits start
        ((first, last) :: rest))
    (fromFirst : first ≤ cur)
    (toLast : cur ≤ last) :
    (loop (listRange buf buflen maskp nmaskbits)
        ⟨cur, first, len⟩).Ensures memory post ↔
      (bscnlEmit buf buflen first last len).Ensures memory
        fun len after =>
          (loop (listRange buf buflen maskp nmaskbits)
            ⟨nextStart nmaskbits rest, nextStart nmaskbits rest,
              len⟩).Ensures after post := by
  cases isRuns with
  | run _ ordered bound _ set ends following =>
      induction remaining : last - cur generalizing cur with
      | zero =>
          obtain rfl : cur = last := by
            omega
          have found := firstSet_nextStart following
          have separate :
              nextStart nmaskbits rest ≥ nmaskbits ∨
                nextStart nmaskbits rest > cur + 1 := by
            by_cases inside : nextStart nmaskbits rest < nmaskbits
            · right
              obtain ⟨above, isSet⟩ := found.found inside
              by_contra isNext
              have same : nextStart nmaskbits rest = cur + 1 := by
                omega
              rw [same, ends (by omega)] at isSet
              exact absurd isSet (by simp)
            · exact .inl (by omega)
          rw [ensures_loop, listRange, if_pos bound, ensures_bind,
            ensures_findNextBit_iff mapped found, if_pos separate,
            ensures_bind]
          simp only [ensures_pure]
      | succ remaining inductionHypothesis =>
          have isSet := set (cur + 1) (by omega) (by omega)
          have found :
              FirstSet memory.longs maskp nmaskbits (cur + 1) (cur + 1) :=
            ⟨by omega, by omega, fun _ => ⟨le_rfl, isSet⟩⟩
          rw [ensures_loop, listRange, if_pos (by dsimp only; omega),
            ensures_bind, ensures_findNextBit_iff mapped found,
            if_neg (by dsimp only; omega), ensures_pure]
          exact inductionHypothesis (by omega) (by omega) (by omega)

end Runs

section Print

variable {before memory : CMemory}
variable {buf maskp : Int}
variable {buflen : BitVec 32}
variable {nmaskbits start : Nat}
variable {printed text : List Byte}
variable {list : List (Nat × Nat)}

/-- What `bscnl_emit` prints before a run. -/
def sepAfter (printed : List Byte) : List Byte :=
  if printed = [] then [] else [ascii ',']

theorem sepAfter_append
    (printed : List Byte)
    (nonempty : text ≠ []) :
    sepAfter (printed ++ text) = [ascii ','] := by
  simp [sepAfter, nonempty]

theorem rangeText_ne_nil (run : Nat × Nat) : rangeText run ≠ [] := by
  rw [rangeText]
  split
  · exact numeral_ne_nil _
  · simp

/--
The text fits, or its last item starts inside of the buffer, whose size is a
number of type `int`.
-/
def ListRoom (buflen : BitVec 32) (offset total : Nat) : Prop :=
  offset < 2 ^ 31 ∧
    (total < buflen.toNat ∨
      buflen.toNat < 2 ^ 31 ∧ offset ≤ buflen.toNat)

/-- Room for the next call of `snprintf`. -/
theorem ListRoom.roomy
    {offset total : Nat}
    (room : ListRoom buflen offset total)
    (starts : printed.length ≤ offset)
    (ends : printed.length + text.length ≤ total) :
    Roomy buflen.toNat (emitSize buflen (.ofNat 32 printed.length))
      printed text := by
  rcases room.2 with fits | ⟨small, inside⟩
  · have size :=
      (le_emitSize (by omega : printed.length ≤ buflen.toNat)).1
    exact .inr ⟨by omega, by omega⟩
  · have size :=
      (le_emitSize (by omega : printed.length ≤ buflen.toNat)).2 small
    exact .inl ⟨by omega, size⟩

/-- The size of the next call of `snprintf`. -/
theorem ListRoom.trueSize
    {offset total : Nat}
    (room : ListRoom buflen offset total)
    (starts : printed.length ≤ offset)
    (ends : printed.length + text.length ≤ total)
    (small : buflen.toNat < 2 ^ 31) :
    TrueSize buf buflen.toNat
      (buf + printed.length,
        emitSize buflen (.ofNat 32 printed.length)) := by
  have bound : printed.length ≤ buflen.toNat := by
    rcases room.2 with fits | ⟨_, inside⟩
    · omega
    · omega
  rw [TrueSize, (le_emitSize bound).2 small]
  omega

/-- One call of `snprintf` in `bscnl_emit` that has enough room. -/
theorem ensures_emitPiece
    {offset total : Nat}
    (positive : 1 ≤ buflen.toNat)
    (isPrinted : Printed before buf buflen.toNat printed memory)
    (room : ListRoom buflen offset total)
    (starts : printed.length ≤ offset)
    (ends : printed.length + text.length ≤ total) :
    (emitPiece buf buflen text (.ofNat 32 printed.length)).Ensures memory
      fun len after =>
        len = .ofNat 32 (printed ++ text).length ∧
          Printed before buf buflen.toNat (printed ++ text) after ∧
          (buflen.toNat < 2 ^ 31 →
            TrueCalls buf buflen.toNat memory after) := by
  have isInt := room.1
  rw [emitPiece, toInt_ofNat_of_lt (by omega), ensures_bind]
  refine (isPrinted.ensures_snprintf positive
    (room.roomy starts ends)).weaken ?_
  intro written after result
  obtain ⟨rfl, isMade, stillPrinted⟩ := result
  rw [ensures_pure, ← BitVec.ofNat_add, ← List.length_append]
  exact ⟨rfl, stillPrinted, fun small =>
    .single isMade (room.trueSize starts ends small)⟩

/-- `bscnl_emit` prints the comma before a run. -/
theorem ensures_emitComma
    {offset total : Nat}
    (positive : 1 ≤ buflen.toNat)
    (isPrinted : Printed before buf buflen.toNat printed memory)
    (room : ListRoom buflen offset total)
    (starts : printed.length ≤ offset)
    (ends : (printed ++ sepAfter printed).length ≤ total) :
    (if (BitVec.ofNat 32 printed.length).toInt > 0 then
        emitPiece buf buflen [ascii ','] (.ofNat 32 printed.length)
      else
        pure (.ofNat 32 printed.length)).Ensures memory
          fun len after =>
            len = .ofNat 32 (printed ++ sepAfter printed).length ∧
              Printed before buf buflen.toNat
                (printed ++ sepAfter printed) after ∧
              (buflen.toNat < 2 ^ 31 →
                TrueCalls buf buflen.toNat memory after) := by
  have isInt := room.1
  rw [toInt_ofNat_of_lt (by omega)]
  by_cases isEmpty : printed = []
  · subst isEmpty
    rw [if_neg (by simp), ensures_pure]
    exact ⟨rfl, isPrinted, fun _ => .refl⟩
  · have isPositive := List.length_pos_iff.mpr isEmpty
    have isComma : sepAfter printed = [ascii ','] := if_neg isEmpty
    rw [isComma, List.length_append] at ends
    rw [isComma, if_pos (by omega)]
    exact ensures_emitPiece positive isPrinted room starts ends

/-- `bscnl_emit` prints a run. -/
theorem ensures_bscnlEmit
    {offset total : Nat}
    {run : Nat × Nat}
    (positive : 1 ≤ buflen.toNat)
    (isPrinted : Printed before buf buflen.toNat printed memory)
    (room : ListRoom buflen offset total)
    (starts : (printed ++ sepAfter printed).length ≤ offset)
    (ends :
      (printed ++ sepAfter printed ++ rangeText run).length ≤ total) :
    (bscnlEmit buf buflen run.1 run.2
      (.ofNat 32 printed.length)).Ensures memory fun len after =>
        len =
            .ofNat 32
              (printed ++ sepAfter printed ++ rangeText run).length ∧
          Printed before buf buflen.toNat
            (printed ++ sepAfter printed ++ rangeText run) after ∧
          (buflen.toNat < 2 ^ 31 →
            TrueCalls buf buflen.toNat memory after) := by
  have commaStarts : printed.length ≤ offset := by
    rw [List.length_append] at starts
    omega
  have commaEnds : (printed ++ sepAfter printed).length ≤ total := by
    rw [List.length_append] at ends
    omega
  rw [List.length_append] at ends
  rw [ensures_bscnlEmit_iff]
  refine (ensures_emitComma positive isPrinted room commaStarts
    commaEnds).weaken ?_
  intro len between result
  obtain ⟨rfl, stillPrinted, commaTrue⟩ := result
  refine (ensures_emitPiece positive stillPrinted room starts
    ends).weaken ?_
  intro len after result
  obtain ⟨isLength, finallyPrinted, rangeTrue⟩ := result
  exact ⟨isLength, finallyPrinted, fun small =>
    (commaTrue small).trans (rangeTrue small)⟩

/-- What is printed after a run. -/
theorem separated_sepAfter
    (printed : List Byte)
    (run : Nat × Nat)
    (rest : List (Nat × Nat)) :
    printed ++ separated (sepAfter printed)
        ((run :: rest).map rangeText) =
      printed ++ sepAfter printed ++ rangeText run ++
        separated
          (sepAfter (printed ++ sepAfter printed ++ rangeText run))
          (rest.map rangeText) := by
  rw [sepAfter_append _ (rangeText_ne_nil run), List.map_cons, separated]
  simp only [List.append_assoc]

/-- The loop of `bitmap_snlistprintf` prints the runs that are left. -/
theorem ensures_listRanges
    (positive : 1 ≤ buflen.toNat)
    (mapped : before.longs.Mapped maskp (bitsToLongs nmaskbits))
    (isRuns : Runs (before.longs.bit maskp) nmaskbits start list)
    (isPrinted : Printed before buf buflen.toNat printed memory)
    (isText :
      text =
        printed ++ separated (sepAfter printed) (list.map rangeText))
    (room :
      list ≠ [] →
      ListRoom buflen
        (printed.length +
          lastStart (sepAfter printed) (list.map rangeText))
        text.length) :
    (loop (listRange buf buflen maskp nmaskbits)
      ⟨nextStart nmaskbits list, nextStart nmaskbits list,
        .ofNat 32 printed.length⟩).Ensures memory fun len after =>
          len = .ofNat 32 text.length ∧
            Printed before buf buflen.toNat text after ∧
            (buflen.toNat < 2 ^ 31 →
              TrueCalls buf buflen.toNat memory after) := by
  induction list generalizing start printed memory with
  | nil =>
      obtain rfl : text = printed := by
        simpa [separated] using isText
      rw [nextStart, ensures_listRange_end]
      exact ⟨rfl, isPrinted, fun _ => .refl⟩
  | cons run rest inductionHypothesis =>
      obtain ⟨first, last⟩ := run
      have hereRuns := isRuns
      rw [← isPrinted.sameLongs] at hereRuns
      have hereMapped := mapped
      rw [← isPrinted.sameLongs] at hereMapped
      have roomHere := room (by simp)
      rw [separated_sepAfter] at isText
      have length := congrArg List.length isText
      rw [List.length_append] at length
      have starts :=
        length_sep_le_lastStart (sepAfter printed)
          (rangeText (first, last)) (rest.map rangeText)
      cases isRuns with
      | run _ ordered _ _ _ _ following =>
          rw [nextStart,
            ensures_listRange_run hereMapped hereRuns le_rfl ordered]
          refine (@ensures_bscnlEmit _ _ _ _ _ _ _ (first, last) positive
            isPrinted roomHere ?_ (by omega)).weaken ?_
          · rw [List.length_append, List.map_cons]
            omega
          · intro len after result
            obtain ⟨rfl, stillPrinted, firstTrue⟩ := result
            refine (inductionHypothesis following stillPrinted isText
              ?_).weaken ?_
            · intro nonempty
              rw [sepAfter_append _ (rangeText_ne_nil _)]
              rw [List.map_cons,
                lastStart_cons _ _ (by simpa using nonempty),
                ← Nat.add_assoc, ← List.length_append,
                ← List.append_assoc] at roomHere
              exact roomHere
            · intro len final result
              obtain ⟨isLength, finallyPrinted, restTrue⟩ := result
              exact ⟨isLength, finallyPrinted, fun small =>
                (firstTrue small).trans (restTrue small)⟩

/-- `bitmap_snlistprintf` starts with an empty string and the first run. -/
theorem ensures_bitmapSnlistprintf_iff
    {post : BitVec 32 → CMemory → Prop}
    (positive : 1 ≤ buflen.toNat)
    (mapped : memory.longs.Mapped maskp (bitsToLongs nmaskbits))
    (room : memory.chars.Mapped buf buflen.toNat)
    (isRuns : Runs (memory.longs.bit maskp) nmaskbits 0 list) :
    (bitmapSnlistprintf buf buflen maskp nmaskbits).Ensures memory post ↔
      (loop (listRange buf buflen maskp nmaskbits)
        ⟨nextStart nmaskbits list, nextStart nmaskbits list, 0⟩).Ensures
          { memory with chars := memory.chars.write buf 0 } post := by
  have nonzero : buflen ≠ 0 := by
    rintro rfl
    exact absurd positive (by decide)
  obtain ⟨value, atBuf⟩ := room 0 positive
  rw [Nat.cast_zero, add_zero] at atBuf
  rw [bitmapSnlistprintf, if_neg nonzero, ensures_bind, ensures_storeChar,
    and_iff_right ⟨value, atBuf⟩, ensures_bind]
  exact @ensures_findFirstBit_iff
    ⟨memory.longs, memory.chars.write buf 0, memory.calls⟩ maskp nmaskbits
    _ _ mapped (firstSet_nextStart isRuns)

/-- The empty string at the start. -/
theorem printed_empty
    (positive : 1 ≤ buflen.toNat)
    (room : memory.chars.Mapped buf buflen.toNat) :
    Printed memory buf buflen.toNat []
      { memory with chars := memory.chars.write buf 0 } where
  sameLongs := rfl
  sameOutside := by
    intro address outside
    apply Region.write_cell_of_ne
    omega
  mapped := room.write _ _
  stores := by simp [Region.Stores]
  terminated := by simp

theorem listText_eq
    (nonempty : list ≠ []) :
    listText list = separated [] (list.map rangeText) := by
  rw [separated_eq_joined _ (by simpa using nonempty), List.nil_append,
    listText]

theorem listText_ne_nil
    (nonempty : list ≠ []) :
    listText list ≠ [] := by
  obtain ⟨run, rest, rfl⟩ := List.exists_cons_of_ne_nil nonempty
  exact joined_ne_nil (rangeText_ne_nil run)

/-- The place in the list where its last run starts. -/
def listOffset (list : List (Nat × Nat)) : Nat :=
  lastStart [] (list.map rangeText)

/-- The last run starts inside of the list. -/
theorem listOffset_le :
    listOffset list ≤ (listText list).length := by
  rcases list.eq_nil_or_concat' with rfl | isConcat
  · simp [listOffset, lastStart]
  · have nonempty : list ≠ [] := by
      rintro rfl
      simp at isConcat
    rw [listText_eq nonempty]
    exact lastStart_le_length []

/-- `bitmap_snlistprintf` prints the runs, and the buffer stays there. -/
theorem ensures_bitmapSnlistprintf_printed
    (positive : 1 ≤ buflen.toNat)
    (mapped : memory.longs.Mapped maskp (bitsToLongs nmaskbits))
    (room : memory.chars.Mapped buf buflen.toNat)
    (isRuns : Runs (memory.longs.bit maskp) nmaskbits 0 list)
    (fits :
      list ≠ [] →
      ListRoom buflen (listOffset list) (listText list).length) :
    (bitmapSnlistprintf buf buflen maskp nmaskbits).Ensures memory
      fun len after =>
        len = .ofNat 32 (listText list).length ∧
          Printed memory buf buflen.toNat (listText list) after ∧
          after.chars.Stores buf
            ((listText list).take (buflen.toNat - 1) ++ [0]) ∧
          (buflen.toNat < 2 ^ 31 →
            TrueCalls buf buflen.toNat memory after) := by
  have isPrinted := printed_empty positive room
  rw [ensures_bitmapSnlistprintf_iff positive mapped room isRuns]
  rcases list.eq_nil_or_concat' with rfl | isConcat
  · rw [nextStart, ensures_listRange_end]
    refine ⟨rfl, isPrinted, ?_, fun _ => .refl⟩
    simpa [listText, joined] using
      Region.stores_singleton (memory.chars.write_cell_same buf 0)
  · have nonempty : list ≠ [] := by
      rintro rfl
      simp at isConcat
    refine (@ensures_listRanges memory _ _ _ _ _ _ [] (listText list) _
      positive mapped isRuns isPrinted ?_ ?_).weaken ?_
    · rw [listText_eq nonempty]
      rfl
    · intro _
      rw [List.length_nil, Nat.zero_add]
      exact fits nonempty
    · intro len after result
      obtain ⟨isLength, finallyPrinted, areTrue⟩ := result
      exact ⟨isLength, finallyPrinted,
        finallyPrinted.truncatedString (listText_ne_nil nonempty), areTrue⟩

/-- `bitmap_snlistprintf` prints the runs of the bitmap. -/
theorem ensures_bitmapSnlistprintf
    (positive : 1 ≤ buflen.toNat)
    (mapped : memory.longs.Mapped maskp (bitsToLongs nmaskbits))
    (room : memory.chars.Mapped buf buflen.toNat)
    (isRuns : Runs (memory.longs.bit maskp) nmaskbits 0 list)
    (fits :
      list ≠ [] →
      ListRoom buflen (listOffset list) (listText list).length) :
    (bitmapSnlistprintf buf buflen maskp nmaskbits).Ensures memory
      fun len after =>
        len = .ofNat 32 (listText list).length ∧
          memory.chars.SameOutside after.chars buf buflen.toNat ∧
          after.longs = memory.longs ∧
          after.chars.Stores buf
            ((listText list).take (buflen.toNat - 1) ++ [0]) ∧
          (buflen.toNat < 2 ^ 31 →
            TrueCalls buf buflen.toNat memory after) := by
  refine (ensures_bitmapSnlistprintf_printed positive mapped room isRuns
    fits).weaken ?_
  intro len after result
  obtain ⟨isLength, isPrinted, string, areTrue⟩ := result
  exact ⟨isLength, isPrinted.sameOutside, isPrinted.sameLongs, string,
    areTrue⟩

end Print

section Outcomes

variable {memory : CMemory}
variable {buf maskp : Int}
variable {buflen len : BitVec 32}
variable {nmaskbits start first last : Nat}
variable {rest list : List (Nat × Nat)}
variable {post : BitVec 32 → CMemory → Prop}

/-- What one call of `snprintf` in `bscnl_emit` does. -/
theorem permits_emitPiece (text : List Byte) :
    (emitPiece buf buflen text len).Permits memory fun result after =>
      result = len + .ofNat 32 text.length ∧
        after.longs = memory.longs ∧
        after.calls =
          memory.calls ++ [(buf + len.toInt, emitSize buflen len)] ∧
        memory.chars.SameOutside after.chars (buf + len.toInt)
          (text.length + 1) := by
  rw [emitPiece, permits_bind]
  refine permits_snprintf.weaken ?_
  intro written after result
  obtain ⟨rfl, sameLongs, isMade, same⟩ := result
  rw [permits_pure]
  exact ⟨rfl, sameLongs, isMade, same⟩

theorem permits_bscnlEmit_iff :
    (bscnlEmit buf buflen first last len).Permits memory post ↔
      (if len.toInt > 0 then emitPiece buf buflen [ascii ','] len
        else pure len).Permits memory fun len after =>
          (emitPiece buf buflen (rangeText (first, last)) len).Permits
            after post :=
  permits_of_ensures_iff fun _ => ensures_bscnlEmit_iff

theorem permits_listRange_run
    (mapped : memory.longs.Mapped maskp (bitsToLongs nmaskbits))
    (isRuns :
      Runs (memory.longs.bit maskp) nmaskbits start
        ((first, last) :: rest)) :
    (loop (listRange buf buflen maskp nmaskbits)
        ⟨first, first, len⟩).Permits memory post ↔
      (bscnlEmit buf buflen first last len).Permits memory
        fun len after =>
          (loop (listRange buf buflen maskp nmaskbits)
            ⟨nextStart nmaskbits rest, nextStart nmaskbits rest,
              len⟩).Permits after post := by
  have ordered : first ≤ last := (isRuns.bounds (first, last) (by simp)).1
  exact permits_of_ensures_iff fun _ =>
    ensures_listRange_run mapped isRuns le_rfl ordered

theorem permits_listRange_end :
    (loop (listRange buf buflen maskp nmaskbits)
        ⟨nmaskbits, nmaskbits, len⟩).Permits memory post ↔
      post len memory := by
  rw [permits_iff, ensures_listRange_end, not_not]

theorem permits_bitmapSnlistprintf_iff
    (positive : 1 ≤ buflen.toNat)
    (mapped : memory.longs.Mapped maskp (bitsToLongs nmaskbits))
    (room : memory.chars.Mapped buf buflen.toNat)
    (isRuns : Runs (memory.longs.bit maskp) nmaskbits 0 list) :
    (bitmapSnlistprintf buf buflen maskp nmaskbits).Permits memory post ↔
      (loop (listRange buf buflen maskp nmaskbits)
        ⟨nextStart nmaskbits list, nextStart nmaskbits list, 0⟩).Permits
          { memory with chars := memory.chars.write buf 0 } post := by
  rw [permits_iff, permits_iff,
    ensures_bitmapSnlistprintf_iff positive mapped room isRuns]

end Outcomes

end LibKern.Bitmap
