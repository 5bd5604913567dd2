import LibKern.BitmapCompatible
import LibKern.BitmapHex
import LibKern.BitmapSets
import LibKern.BitmapUnused

namespace LibKern.Bitmap

/-!
# Passing bitmaps on as text

A bitmap is printed in one of the two formats and parsed into a bitmap of
another size, which is printed again, and so on.  The two formats do not depend
on the size: what arrives is the set of positions that was sent, if every bitmap
on the way is large enough for it.  The list of no positions is not accepted.
-/

open Program

/-- The formats in which a bitmap is printed. -/
inductive TextFormat where
  | hexadecimal
  | list
  deriving DecidableEq

/-- A bitmap that the text of the bitmap before it is parsed into. -/
structure Hop where
  format : TextFormat
  dst : Int
  nmaskbits : Nat

/-- Print a bitmap. -/
def TextFormat.print
    (buf : Int)
    (buflen : BitVec 32)
    (maskp : Int)
    (nmaskbits : Nat) :
    TextFormat → Program CMemory (BitVec 32)
  | .hexadecimal => bitmapSnprintf buf buflen maskp nmaskbits
  | .list => bitmapSnlistprintf buf buflen maskp nmaskbits

/-- Parse a text of a given length. -/
def TextFormat.parse
    (buf : Int)
    (len : BitVec 32)
    (maskp : Int)
    (nmaskbits : Nat) :
    TextFormat → Program CMemory Int
  | .hexadecimal => bitmapParse maskp nmaskbits buf len.toNat
  | .list => bitmapParselist maskp nmaskbits buf

/-- Pass a bitmap on until a text is not accepted. -/
def relay
    (buf : Int)
    (buflen : BitVec 32)
    (maskp : Int)
    (nmaskbits : Nat) : List Hop → Program CMemory Int
  | [] => pure 0
  | hop :: hops => do
      let len ← hop.format.print buf buflen maskp nmaskbits
      let status ← hop.format.parse buf len hop.dst hop.nmaskbits
      if status = 0 then relay buf buflen hop.dst hop.nmaskbits hops
      else pure status

/-- The address and the size of the last bitmap. -/
def arrival (maskp : Int) (nmaskbits : Nat) : List Hop → Int × Nat
  | [] => (maskp, nmaskbits)
  | hop :: hops => arrival hop.dst hop.nmaskbits hops

/-- The text of a set of positions. -/
def TextFormat.text
    (nmaskbits : Nat)
    (set : Finset Nat) : TextFormat → List Byte
  | .hexadecimal =>
      hexText nmaskbits
        (Nat.ofBits fun index : Fin nmaskbits => decide (index.val ∈ set))
  | .list => listText (runs (fun index => decide (index ∈ set)) nmaskbits)

/-- The bitmap has these positions, and it is not the empty list. -/
def Hop.Accepts (hop : Hop) (set : Finset Nat) : Prop :=
  set ⊆ Finset.range hop.nmaskbits ∧
    (hop.format = .list → set.Nonempty)

/-- The buffer has room for all texts on the way. -/
def RoomForTexts
    (room : Nat)
    (set : Finset Nat) : Nat → List Hop → Prop
  | _, [] => True
  | nmaskbits, hop :: hops =>
      (hop.format.text nmaskbits set).length < room ∧
        RoomForTexts room set hop.nmaskbits hops

section Frame

variable {chars : Region Byte}

theorem preserves_loadLong
    {property : CMemory → Prop}
    (address : Int) :
    (loadLong address).Preserves property :=
  preserves_reads _

/-- A word is no character. -/
theorem preserves_storeLong
    (address : Int)
    (value : BitVec 64) :
    (storeLong address value).Preserves fun memory =>
      memory.chars = chars := by
  refine preserves_updates ?_
  intro memory after same stored
  obtain ⟨_, -, rfl⟩ := Option.map_eq_some_iff.mp stored
  exact same

theorem preserves_bitmapShiftLeft
    (dst src : Int)
    (shift bits : Nat) :
    (bitmapShiftLeft dst src shift bits).Preserves fun memory =>
      memory.chars = chars := by
  refine Preserves.bind (.countDown (fun k => ?_) _) fun _ =>
    .onlyIf fun _ => .countUp (fun _ => preserves_storeLong _ _) _
  refine Preserves.bind (.ite (fun _ => preserves_loadLong _) fun _ =>
    preserves_pure _) fun lower => ?_
  refine (preserves_loadLong _).bind fun upper => ?_
  refine (preserves_storeLong _ _).bind fun _ => .onlyIf fun _ => ?_
  exact (preserves_loadLong _).bind fun word => preserves_storeLong _ _

theorem preserves_parseMore
    {property : CMemory → Prop}
    (vars : ParseVars) :
    (parseMore vars).Preserves property :=
  .ite (fun _ => preserves_pure _) fun _ => preserves_pure _

/-- `__bitmap_parse` only reads the text. -/
theorem preserves_bitmapParse
    (maskp : Int)
    (nmaskbits : Nat)
    (buf : Int)
    (buflen : Nat) :
    (bitmapParse maskp nmaskbits buf buflen).Preserves fun memory =>
      memory.chars = chars := by
  refine Preserves.bind (.countUp (fun _ => preserves_storeLong _ _) _)
    fun _ => .loop (fun vars => ?_) _
  refine Preserves.bind (fun memory same => ?_) fun scanned => ?_
  · refine (permits_parseChar _).weaken ?_
    intro _ after result
    rw [result.1, same]
  · cases scanned with
    | error status =>
        exact preserves_pure _
    | ok read =>
        refine .ite (fun _ => preserves_pure _) fun _ => .ite
          (fun _ => preserves_parseMore _) fun _ => ?_
        refine (preserves_bitmapShiftLeft _ _ _ _).bind fun _ => ?_
        refine (preserves_loadLong _).bind fun word => ?_
        refine (preserves_storeLong _ _).bind fun _ => ?_
        exact .ite (fun _ => preserves_pure _) fun _ =>
          preserves_parseMore _

end Frame

section Sets

variable {set : Finset Nat}
variable {nmaskbits size : Nat}
variable {longs : Region (BitVec 64)}
variable {maskp : Int}

/-- The number with these binary digits. -/
theorem testBit_ofBits_mem
    (inside : set ⊆ Finset.range nmaskbits)
    (index : Nat) :
    (Nat.ofBits fun index : Fin nmaskbits =>
        decide (index.val ∈ set)).testBit index =
      decide (index ∈ set) := by
  rw [Nat.testBit_ofBits]
  split
  · rfl
  · rename_i outside
    have notMember : index ∉ set := fun member =>
      outside (Finset.mem_range.mp (inside member))
    exact (decide_eq_false notMember).symm

/-- The size of a number is where its last digit is. -/
theorem ofBits_mem_lt_iff
    (inside : set ⊆ Finset.range nmaskbits) :
    (Nat.ofBits fun index : Fin nmaskbits =>
        decide (index.val ∈ set)) < 2 ^ size ↔
      set ⊆ Finset.range size := by
  constructor
  · intro below index member
    rw [Finset.mem_range]
    by_contra above
    have isClear := Nat.testBit_lt_two_pow
      (below.trans_le (Nat.pow_le_pow_right (by omega) (not_lt.mp above)))
    rw [testBit_ofBits_mem inside, decide_eq_false_iff_not] at isClear
    exact isClear member
  · intro within
    apply Nat.lt_pow_two_of_testBit
    intro index above
    rw [testBit_ofBits_mem inside, decide_eq_false_iff_not]
    intro member
    have below := Finset.mem_range.mp (within member)
    omega

/-- The runs of a set of positions. -/
theorem runs_mem_bounds_iff
    (inside : set ⊆ Finset.range nmaskbits) :
    (∀ run ∈ runs (fun index => decide (index ∈ set)) nmaskbits,
        run.2 < size) ↔
      set ⊆ Finset.range size := by
  have isRuns :
      Runs (fun index => decide (index ∈ set)) nmaskbits 0 _ :=
    Runs.of_runs
  constructor
  · intro bounded index member
    obtain ⟨run, isRun, -, toLast⟩ :=
      (isRuns.set_iff (Nat.zero_le _)
        (Finset.mem_range.mp (inside member))).mp
          (decide_eq_true member)
    have below := bounded run isRun
    rw [Finset.mem_range]
    omega
  · intro within run isRun
    have isSet :=
      isRuns.set_of_mem isRun (isRuns.bounds run isRun).1 le_rfl
    exact Finset.mem_range.mp (within (of_decide_eq_true isSet))

theorem runs_mem_ne_nil_iff
    (inside : set ⊆ Finset.range nmaskbits) :
    runs (fun index => decide (index ∈ set)) nmaskbits ≠ [] ↔
      set.Nonempty := by
  have isRuns :
      Runs (fun index => decide (index ∈ set)) nmaskbits 0 _ :=
    Runs.of_runs
  constructor
  · intro nonempty
    obtain ⟨run, isRun⟩ := List.exists_mem_of_ne_nil _ nonempty
    have isSet :=
      isRuns.set_of_mem isRun le_rfl (isRuns.bounds run isRun).1
    exact ⟨run.1, of_decide_eq_true isSet⟩
  · intro nonempty
    obtain ⟨index, member⟩ := nonempty
    obtain ⟨run, isRun, -⟩ :=
      (isRuns.set_iff (Nat.zero_le _)
        (Finset.mem_range.mp (inside member))).mp
          (decide_eq_true member)
    exact List.ne_nil_of_mem isRun

theorem view_subset : view longs maskp nmaskbits ⊆ Finset.range nmaskbits :=
  Finset.filter_subset _ _

/-- The set of a bitmap is determined by its bits. -/
theorem view_eq_of_mem_iff
    (inside : set ⊆ Finset.range nmaskbits)
    (isBit :
      ∀ index < nmaskbits,
        longs.bit maskp index = true ↔ index ∈ set) :
    view longs maskp nmaskbits = set := by
  ext index
  rw [mem_view]
  constructor
  · intro isSet
    exact (isBit index isSet.1).mp isSet.2
  · intro member
    have below := Finset.mem_range.mp (inside member)
    exact ⟨below, (isBit index below).mpr member⟩

/-- The number of a bitmap is the number of its set. -/
theorem bitmapNumber_eq :
    bitmapNumber longs maskp nmaskbits =
      Nat.ofBits fun index : Fin nmaskbits =>
        decide (index.val ∈ view longs maskp nmaskbits) := by
  apply Nat.eq_of_testBit_eq
  intro index
  rw [testBit_ofBits_mem view_subset, testBit_bitmapNumber]
  simp [Bool.decide_and]

end Sets

section Print

variable {memory : CMemory}
variable {buf maskp : Int}
variable {buflen : BitVec 32}
variable {nmaskbits : Nat}

/-- A text is in the buffer, and the bitmaps have not changed. -/
structure HoldsText
    (before : CMemory)
    (buf : Int)
    (room : Nat)
    (text : List Byte)
    (len : BitVec 32)
    (memory : CMemory) : Prop where
  sameLongs : memory.longs = before.longs
  mapped : memory.chars.Mapped buf room
  isLength : len.toNat = text.length
  stores : memory.chars.Stores buf (text ++ [0])

/-- Both formats print the set of the bitmap. -/
theorem TextFormat.ensures_print
    (format : TextFormat)
    (positive : 1 ≤ nmaskbits)
    (bound : nmaskbits < 2 ^ 31)
    (mapped : memory.longs.Mapped maskp (bitsToLongs nmaskbits))
    (room : memory.chars.Mapped buf buflen.toNat)
    (small : buflen.toNat < 2 ^ 31)
    (fits :
      (format.text nmaskbits (view memory.longs maskp nmaskbits)).length <
        buflen.toNat) :
    (format.print buf buflen maskp nmaskbits).Ensures memory
      fun len after =>
        HoldsText memory buf buflen.toNat
          (format.text nmaskbits (view memory.longs maskp nmaskbits)) len
          after := by
  cases format with
  | hexadecimal =>
      simp only [TextFormat.text, ← bitmapNumber_eq] at fits ⊢
      refine (ensures_bitmapSnprintf positive bound mapped room (by omega)
        ((hexOffset_le positive).trans fits.le)).weaken ?_
      intro len after result
      obtain ⟨isLength, isPrinted, -⟩ := result
      exact
        { sameLongs := isPrinted.sameLongs
          mapped := isPrinted.mapped
          isLength := toNat_of_toInt isLength
          stores := isPrinted.string (hexText_ne_nil positive) fits }
  | list =>
      simp only [TextFormat.text] at fits ⊢
      have isRuns :
          Runs (memory.longs.bit maskp) nmaskbits 0
            (runs
              (fun index =>
                decide (index ∈ view memory.longs maskp nmaskbits))
              nmaskbits) := by
        refine Runs.of_runs.congr fun index below => ?_
        simp [below]
      have starts := @listOffset_le
        (runs
          (fun index =>
            decide (index ∈ view memory.longs maskp nmaskbits))
          nmaskbits)
      refine (ensures_bitmapSnlistprintf_printed (by omega) mapped room
        isRuns fun _ => ⟨by omega, .inl fits⟩).weaken ?_
      intro len after result
      obtain ⟨rfl, isPrinted, string, -⟩ := result
      rw [List.take_of_length_le (by omega)] at string
      exact
        { sameLongs := isPrinted.sameLongs
          mapped := isPrinted.mapped
          isLength := by
            rw [BitVec.toNat_ofNat]
            omega
          stores := string }

end Print

section Parse

variable {memory : CMemory}
variable {buf dst : Int}
variable {len : BitVec 32}
variable {sent nmaskbits : Nat}
variable {set : Finset Nat}

/-- The set has arrived, or the bitmap does not accept it. -/
def Hop.Outcome
    (hop : Hop)
    (set : Finset Nat)
    (before : CMemory)
    (status : Int)
    (after : CMemory) : Prop :=
  status = 0 ∧ hop.Accepts set ∧
      Tidy before hop.dst hop.nmaskbits after ∧
      view after.longs hop.dst hop.nmaskbits = set ∨
    status < 0 ∧ ¬hop.Accepts set

/-- `__bitmap_parse` reads what was printed for a bitmap of another size. -/
theorem ensures_parse_hexadecimal
    (sentPositive : 1 ≤ sent)
    (inside : set ⊆ Finset.range sent)
    (positive : 1 ≤ nmaskbits)
    (bound : nmaskbits + 32 < 2 ^ 31)
    (mapped : memory.longs.Mapped dst (bitsToLongs nmaskbits))
    (isLength :
      len.toNat = (TextFormat.hexadecimal.text sent set).length)
    (stores :
      memory.chars.Stores buf
        (TextFormat.hexadecimal.text sent set ++ [0])) :
    (bitmapParse dst nmaskbits buf len.toNat).Ensures memory
      (Hop.Outcome ⟨.hexadecimal, dst, nmaskbits⟩ set memory) := by
  simp only [TextFormat.text] at isLength stores
  generalize isNumber :
    (Nat.ofBits fun index : Fin sent => decide (index.val ∈ set)) =
      number at isLength stores
  have small : number < 2 ^ sent := by
    rw [← isNumber]
    exact Nat.ofBits_lt_two_pow _
  have fits_iff :
      number < 2 ^ nmaskbits ↔ set ⊆ Finset.range nmaskbits := by
    rw [← isNumber]
    exact ofBits_mem_lt_iff inside
  have nonempty : hexChunks sent number ((sent + 31) / 32) ≠ [] :=
    hexChunks_ne_nil (by omega)
  have isChunks := @chunks_hexText sent True number sentPositive
  have isValue := chunksValue_hexText small
  have countFits :
      CountFits nmaskbits 0 (hexChunks sent number ((sent + 31) / 32)) ↔
        set ⊆ Finset.range nmaskbits := by
    rw [countFits_iff_of_chunks (by omega) isChunks, isValue, Passes,
      ← fits_iff]
    omega
  have starts := head_joined nonempty isChunk_hexChunks []
  rw [List.append_nil] at starts
  have input :
      Input True memory.chars buf len.toNat ([] ++ hexText sent number) :=
    { stores := stores.of_append
      nonzero := ne_zero_of_mem_joined isChunk_hexChunks
      ending := .inl ⟨trivial, isLength.symm⟩ }
  refine ((ensures_bitmapParse positive mapped input (by simp [Blank])
    starts).both (permits_bitmapParse positive mapped)).weaken ?_
  intro status after result
  obtain ⟨⟨accepted, chunks, otherChunks, fits, represented⟩ |
    ⟨isError, none⟩, isTidy⟩ := result
  · obtain rfl := isChunks.unique otherChunks
    rw [Nat.zero_mul, Nat.zero_add, isValue] at represented
    have within := countFits.mp fits
    refine .inl ⟨accepted, ⟨within, by simp⟩, isTidy accepted, ?_⟩
    refine view_eq_of_mem_iff within
      fun index (below : index < nmaskbits) => ?_
    rw [represented (fits_iff.mpr within) index
      (by simp only [bitsToLongs]; omega), ← isNumber,
      testBit_ofBits_mem inside, decide_eq_true_eq]
  · refine .inr ⟨?_, fun accepts => none _ isChunks
      (countFits.mpr accepts.1)⟩
    rcases isError with rfl | rfl <;> decide

/-- `bitmap_parselist` reads the list of a bitmap of another size. -/
theorem ensures_parse_list
    (inside : set ⊆ Finset.range sent)
    (sentBound : sent < 2 ^ 31)
    (bound : nmaskbits < 2 ^ 31)
    (mapped : memory.longs.Mapped dst (bitsToLongs nmaskbits))
    (stores :
      memory.chars.Stores buf (TextFormat.list.text sent set ++ [0])) :
    (bitmapParselist dst nmaskbits buf).Ensures memory
      (Hop.Outcome ⟨.list, dst, nmaskbits⟩ set memory) := by
  have within_iff := @runs_mem_bounds_iff set sent nmaskbits inside
  have nonempty_iff := runs_mem_ne_nil_iff inside
  have isRuns :
      Runs (fun index => decide (index ∈ set)) sent 0
        (runs (fun index => decide (index ∈ set)) sent) :=
    Runs.of_runs
  simp only [TextFormat.text] at stores
  generalize runs (fun index => decide (index ∈ set)) sent = list
    at within_iff nonempty_iff isRuns stores
  have fits := Valid.fits sentBound isRuns.bounds
  refine ((ensures_bitmapParselist bound mapped stores
    ne_zero_of_mem_listText).both (permits_bitmapParselist mapped)).weaken ?_
  intro status after result
  obtain ⟨⟨-, -, ⟨accepted, items, isItems, allFit, union⟩ |
    ⟨isError, none⟩⟩, isTidy⟩ := result
  · have nonempty : list ≠ [] := by
      rintro rfl
      exact not_items_nil isItems
    obtain rfl := (items_listText nonempty).unique isItems
    have within : set ⊆ Finset.range nmaskbits := by
      refine within_iff.mp fun run isRun => ?_
      have below := (allFit run isRun).2
      rwa [(fits run isRun).2.2] at below
    refine .inl ⟨accepted, ⟨within, fun _ => nonempty_iff.mp nonempty⟩,
      isTidy, ?_⟩
    refine view_eq_of_mem_iff within
      fun index (below : index < nmaskbits) => ?_
    rw [union index (by simp only [bitsToLongs]; omega),
      exists_truncated_iff fun item isMember => (fits item isMember).2]
    constructor
    · intro isIn
      obtain ⟨run, isRun, fromFirst, toLast⟩ := isIn
      exact of_decide_eq_true (isRuns.set_of_mem isRun fromFirst toLast)
    · intro member
      exact (isRuns.set_iff (Nat.zero_le _)
        (Finset.mem_range.mp (inside member))).mp (decide_eq_true member)
  · refine .inr ⟨?_, fun accepts => ?_⟩
    · rcases isError with rfl | rfl <;> decide
    · have nonempty := nonempty_iff.mpr (accepts.2 rfl)
      have bounds := within_iff.mpr accepts.1
      refine none list (items_listText nonempty) fun run isRun => ?_
      have isRange := (fits run isRun).1
      refine ⟨isRange.1, ?_⟩
      rw [(fits run isRun).2.2]
      exact bounds run isRun

end Parse

section Relay

variable {memory : CMemory}
variable {buf maskp : Int}
variable {buflen len : BitVec 32}
variable {sent nmaskbits : Nat}
variable {hops : List Hop}
variable {set : Finset Nat}

/-- A size for which the counters of `__bitmap_parse` do not wrap around. -/
def Sized (nmaskbits : Nat) : Prop :=
  1 ≤ nmaskbits ∧ nmaskbits + 32 < 2 ^ 31

/-- Both formats are parsed into a bitmap of any size. -/
theorem Hop.ensures_parse
    {hop : Hop}
    (sentSized : Sized sent)
    (inside : set ⊆ Finset.range sent)
    (sized : Sized hop.nmaskbits)
    (mapped : memory.longs.Mapped hop.dst (bitsToLongs hop.nmaskbits))
    (isLength : len.toNat = (hop.format.text sent set).length)
    (stores :
      memory.chars.Stores buf (hop.format.text sent set ++ [0])) :
    (hop.format.parse buf len hop.dst hop.nmaskbits).Ensures memory
      fun status after =>
        after.chars = memory.chars ∧
          hop.Outcome set memory status after := by
  obtain ⟨format, dst, nmaskbits⟩ := hop
  obtain ⟨positive, bound⟩ := sized
  obtain ⟨sentPositive, sentBound⟩ := sentSized
  cases format with
  | hexadecimal =>
      have parsed :=
        ensures_parse_hexadecimal sentPositive inside positive bound mapped
          isLength stores
      refine (parsed.both (preserves_bitmapParse _ _ _ _ memory
        rfl)).weaken ?_
      intro status after result
      exact ⟨result.2, result.1⟩
  | list =>
      have parsed :=
        ensures_parse_list inside (by omega) (by omega) mapped stores
      have same :=
        (ensures_bitmapParselist (by omega) mapped stores
          ne_zero_of_mem_listText).permits
      refine (parsed.both same).weaken ?_
      intro status after result
      exact ⟨result.2.1, result.1⟩

/-- What arrives after the first bitmap on the way. -/
theorem ensures_relay_cons
    {hop : Hop}
    {post : Int → CMemory → Prop}
    (sized : Sized nmaskbits)
    (hopSized : Sized hop.nmaskbits)
    (source : memory.longs.Mapped maskp (bitsToLongs nmaskbits))
    (target : memory.longs.Mapped hop.dst (bitsToLongs hop.nmaskbits))
    (room : memory.chars.Mapped buf buflen.toNat)
    (small : buflen.toNat < 2 ^ 31)
    (fits :
      (hop.format.text nmaskbits
        (view memory.longs maskp nmaskbits)).length < buflen.toNat)
    (refused :
      ∀ status after,
        status < 0 →
        ¬hop.Accepts (view memory.longs maskp nmaskbits) →
        post status after)
    (arrives :
      ∀ after : CMemory,
        hop.Accepts (view memory.longs maskp nmaskbits) →
        view after.longs hop.dst hop.nmaskbits =
          view memory.longs maskp nmaskbits →
        after.chars.Mapped buf buflen.toNat →
        (∀ start count,
          memory.longs.Mapped start count →
          after.longs.Mapped start count) →
        (relay buf buflen hop.dst hop.nmaskbits hops).Ensures after post) :
    (relay buf buflen maskp nmaskbits (hop :: hops)).Ensures memory
      post := by
  obtain ⟨positive, bound⟩ := sized
  rw [relay, ensures_bind]
  refine (hop.format.ensures_print positive (by omega) source room small
    fits).weaken ?_
  intro len printed holds
  rw [ensures_bind]
  rw [← holds.sameLongs] at target
  refine (Hop.ensures_parse ⟨positive, bound⟩ view_subset hopSized target
    holds.isLength holds.stores).weaken ?_
  intro status after result
  obtain ⟨sameChars, ⟨rfl, accepts, isTidy, isSet⟩ |
    ⟨negative, refuses⟩⟩ := result
  · rw [if_pos rfl]
    refine arrives after accepts isSet ?_ ?_
    · rw [sameChars]
      exact holds.mapped
    · intro start count isMapped
      rw [← holds.sameLongs] at isMapped
      exact isTidy.outside.mapped isTidy.mapped isMapped
  · rw [if_neg negative.ne, ensures_pure]
    exact refused status after negative refuses

/--
A bitmap that is passed on as text through any bitmaps arrives as the same set,
if and only if each of them accepts the set; otherwise there is an error.
-/
theorem relay_delivers_iff
    (sized : ∀ size ∈ nmaskbits :: hops.map Hop.nmaskbits, Sized size)
    (source : memory.longs.Mapped maskp (bitsToLongs nmaskbits))
    (targets :
      ∀ hop ∈ hops,
        memory.longs.Mapped hop.dst (bitsToLongs hop.nmaskbits))
    (room : memory.chars.Mapped buf buflen.toNat)
    (small : buflen.toNat < 2 ^ 31)
    (fits :
      RoomForTexts buflen.toNat (view memory.longs maskp nmaskbits)
        nmaskbits hops) :
    (relay buf buflen maskp nmaskbits hops).Ensures memory
      fun status after =>
        let set := view memory.longs maskp nmaskbits
        let last := arrival maskp nmaskbits hops
        status = 0 ∧ (∀ hop ∈ hops, hop.Accepts set) ∧
            view after.longs last.1 last.2 = set ∨
          status < 0 ∧ ¬∀ hop ∈ hops, hop.Accepts set := by
  induction hops generalizing memory maskp nmaskbits with
  | nil =>
      exact ensures_pure.mpr (.inl ⟨rfl, by simp, rfl⟩)
  | cons hop hops inductionHypothesis =>
      rw [List.map_cons, List.forall_mem_cons] at sized
      rw [List.forall_mem_cons] at targets
      refine ensures_relay_cons sized.1 (sized.2 _ (by simp)) source
        targets.1 room small fits.1 ?_ ?_
      · intro status after negative refuses
        exact .inr ⟨negative, fun all => refuses (all hop (by simp))⟩
      · intro after accepts isSet stillRoom stillMapped
        have following :=
          @inductionHypothesis after hop.dst hop.nmaskbits sized.2
            (stillMapped _ _ targets.1)
            (fun next member => stillMapped _ _ (targets.2 next member))
            stillRoom (by rw [isSet]; exact fits.2)
        rw [isSet] at following
        refine following.weaken ?_
        intro status final outcome
        simp only [List.forall_mem_cons, arrival, and_iff_right accepts]
        exact outcome

/-- A bitmap of one word, a bitmap of two words, and a buffer. -/
def relayMemory : CMemory where
  longs := .ofList [0x86, 0, 0]
  chars := .ofList (List.replicate 32 0)

/-- The bits 1, 2 and 7 are passed on to 70 bits and back to 8 bits. -/
theorem relay_delivers_iff_of_sample :
    (relay 0 32 0 40
      [⟨.list, 1, 70⟩, ⟨.hexadecimal, 0, 8⟩]).Ensures relayMemory
        fun status after =>
          status = 0 ∧ view after.longs 0 8 = {1, 2, 7} := by
  have all : relayMemory.longs.Mapped 0 3 :=
    Region.mapped_ofList le_rfl
  have isView : view relayMemory.longs 0 40 = {1, 2, 7} := by
    decide +kernel
  refine (relay_delivers_iff ?_ (all.mono (by decide)) ?_
    (Region.mapped_ofList (by simp)) (by decide) ?_).weaken ?_
  · simp [Sized]
  · simp only [List.forall_mem_cons, List.not_mem_nil, false_implies,
      implies_true, and_true]
    exact ⟨all.drop (by decide : 1 + 2 ≤ 3), all.mono (by decide)⟩
  · rw [isView]
    exact ⟨by decide +kernel, by decide +kernel, trivial⟩
  · rw [isView]
    intro status after outcome
    rcases outcome with ⟨isZero, -, isSet⟩ | ⟨-, refused⟩
    · exact ⟨isZero, isSet⟩
    · refine absurd ?_ refused
      rw [List.forall_mem_cons, List.forall_mem_singleton]
      exact ⟨⟨by decide, fun _ => by simp⟩, ⟨by decide, by simp⟩⟩

end Relay

end LibKern.Bitmap
