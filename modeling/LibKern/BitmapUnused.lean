import LibKern.BitmapMaps
import LibKern.BitmapRegions
import LibKern.BitmapSpans

namespace LibKern.Bitmap

/-!
# Unused bits stay zero

If the unused bits of all bitmaps are zero, then an operation leaves them zero.
An operation only writes to its result, so the other bitmaps keep their unused
bits anyway.
-/

open Program

/-- The unused bits in the last word of a bitmap are zero. -/
def UnusedClear
    (memory : CMemory)
    (bitmap : Int)
    (nbits : Nat) : Prop :=
  ∀ index < bitsToLongs nbits * 64, nbits ≤ index →
    memory.longs.bit bitmap index = false

/-- Only one bitmap was changed, and its unused bits are zero. -/
structure Tidy
    (memory : CMemory)
    (dst : Int)
    (nbits : Nat)
    (after : CMemory) : Prop where
  mapped : after.longs.Mapped dst (bitsToLongs nbits)
  outside : memory.longs.SameOutside after.longs dst (bitsToLongs nbits)
  clear : UnusedClear after dst nbits

section Tidy

variable {memory before after : CMemory}
variable {dst : Int}
variable {nbits : Nat}

/-- A result whose unused bits are zero. -/
theorem Becomes.tidy
    {value : Nat → Bool}
    (becomes : Becomes memory dst nbits value after)
    (clear :
      ∀ index < bitsToLongs nbits * 64, nbits ≤ index →
        value index = false) :
    Tidy memory dst nbits after := by
  refine ⟨becomes.mapped, becomes.outside, ?_⟩
  intro index inside unused
  rw [becomes.isValue index inside, clear index inside unused]

/-- Nothing was changed. -/
theorem Tidy.refl
    (mapped : memory.longs.Mapped dst (bitsToLongs nbits))
    (clear : UnusedClear memory dst nbits) :
    Tidy memory dst nbits memory :=
  ⟨mapped, .refl, clear⟩

/-- `set_bit` of a used bit. -/
theorem Tidy.setBit
    {nr : Nat}
    (tidy : Tidy memory dst nbits before)
    (used : nr < nbits) :
    (setBit nr dst).Ensures before fun _ => Tidy memory dst nbits := by
  have inside : nr / 64 < bitsToLongs nbits := by
    simp only [bitsToLongs]
    omega
  refine (ensures_setBit_overlap tidy.mapped inside).weaken ?_
  intro _ after result
  obtain ⟨-, same, stillMapped, isBit⟩ := result
  refine ⟨stillMapped _ _ tidy.mapped, tidy.outside.trans same, ?_⟩
  intro index bound unused
  rw [isBit, tidy.clear index bound unused, decide_eq_false (by omega),
    Bool.or_false]

end Tidy

section ParseList

variable {memory : CMemory}
variable {maskp : Int}
variable {nmaskbits : Nat}

theorem preserves_loadChar
    {property : CMemory → Prop}
    (address : Int) :
    (loadChar address).Preserves property :=
  preserves_reads _

theorem preserves_strtoul
    {property : CMemory → Prop}
    (address : Int) :
    (strtoul address).Preserves property := by
  refine .loop (fun current => ?_) _
  exact (preserves_loadChar _).bind fun c =>
    .ite (fun _ => preserves_pure _) fun _ => preserves_pure _

/-- The end of a range is only read. -/
theorem preserves_parseRangeEnd
    {property : CMemory → Prop}
    (a : BitVec 32)
    (bp : Int) :
    (parseRangeEnd a bp).Preserves property := by
  refine (preserves_loadChar _).bind fun c => .ite (fun _ => ?_) fun _ =>
    preserves_pure _
  refine (preserves_loadChar _).bind fun c => .ite
    (fun _ => preserves_pure _) fun _ => ?_
  exact (preserves_strtoul _).bind fun result => preserves_pure _

/-- The bits of a range that is inside of the bitmap. -/
theorem preserves_setRange
    {b : BitVec 32}
    (inside : b.toNat < nmaskbits)
    (a : BitVec 32) :
    (loop (setRange maskp b) a).Preserves
      (Tidy memory maskp nmaskbits) := by
  refine .loop (fun current => .ite (fun atMost => ?_) fun _ =>
    preserves_pure _) _
  refine Preserves.bind (fun before tidy => ?_) fun _ => preserves_pure _
  have used : current.toNat < nmaskbits :=
    (BitVec.le_def.mp atMost).trans_lt inside
  exact (tidy.setBit used).permits

/-- `bitmap_parselist` only sets used bits. -/
theorem permits_bitmapParselist
    {bp : Int}
    (mapped : memory.longs.Mapped maskp (bitsToLongs nmaskbits)) :
    (bitmapParselist maskp nmaskbits bp).Permits memory fun _ =>
      Tidy memory maskp nmaskbits := by
  have ranges (bp : Int) :
      (loop (parseRange maskp nmaskbits) bp).Preserves
        (Tidy memory maskp nmaskbits) := by
    refine .loop (fun bp => ?_) bp
    refine (preserves_loadChar _).bind fun c => .ite
      (fun _ => preserves_pure _) fun _ => ?_
    refine (preserves_strtoul _).bind fun first => ?_
    refine (preserves_parseRangeEnd _ _).bind fun second => ?_
    cases second with
    | error status =>
        exact preserves_pure _
    | ok range =>
        refine .ite (fun _ => preserves_pure _) fun _ => .ite
          (fun _ => preserves_pure _) fun inside => ?_
        refine (preserves_setRange (not_le.mp inside) _).bind fun _ => ?_
        refine (preserves_loadChar _).bind fun c => ?_
        exact (preserves_loadChar _).bind fun c => .ite
          (fun _ => preserves_pure _) fun _ => preserves_pure _
  rw [bitmapParselist, permits_bind]
  refine ((ensures_bitmapZero mapped).permits).weaken ?_
  intro _ zeroed result
  obtain ⟨-, stillMapped, same, isZero⟩ := result
  exact ranges bp zeroed ⟨stillMapped, same, fun index inside _ =>
    isZero index inside⟩

end ParseList

section Parse

variable {memory before : CMemory}
variable {maskp : Int}
variable {nmaskbits : Nat}

/-- A chunk is only read, and an error is reported. -/
theorem permits_parseChar
    (vars : ChunkVars) :
    (loop parseChar vars).Permits memory fun result after =>
      after = memory ∧ ∀ status, result = .error status → status ≠ 0 := by
  refine permits_loop (fun _ after => after = memory) ?_ rfl
  intro vars state same
  subst same
  simp only [parseChar, permits_ite, permits_bind, loadChar,
    permits_reads, permits_pure]
  repeat' split
  all_goals simp [einval, eoverflow]

/-- Insert a chunk whose bits are used bits. -/
theorem Tidy.insertChunk
    {chunk : BitVec 32}
    (tidy : Tidy memory maskp nmaskbits before)
    (positive : 1 ≤ nmaskbits) :
    (do
      bitmapShiftLeft maskp maskp chunkSz nmaskbits
      let word ← loadLong maskp
      storeLong maskp (word ||| chunk.setWidth 64) :
        Program CMemory Unit).Ensures before fun _ after =>
          (∀ index, nmaskbits ≤ index → chunk.getLsbD index = false) →
            Tidy memory maskp nmaskbits after := by
  rw [ensures_bind]
  refine (becomes_bitmapShiftLeft tidy.mapped tidy.mapped (.inl rfl)
    (Nat.zero_le _)).weaken ?_
  intro _ shifted becomes
  have first : 0 < bitsToLongs nmaskbits := by
    simp only [bitsToLongs]
    omega
  obtain ⟨word, atWord⟩ := becomes.mapped 0 first
  rw [Nat.cast_zero, add_zero] at atWord
  simp only [ensures_bind, ensures_loadLong, ensures_storeLong, atWord,
    Option.some.injEq, exists_eq_left', exists_eq', true_and]
  intro noUnused
  have same :=
    @Region.SameOutside.write _ shifted.longs maskp _ _ first
      (word ||| chunk.setWidth 64)
  rw [Nat.cast_zero, add_zero] at same
  refine ⟨becomes.mapped.write _ _,
    (tidy.outside.trans becomes.outside).trans same, ?_⟩
  intro index bound unused
  have isClear : shifted.longs.bit maskp index = false := by
    rw [becomes.isValue index bound, shiftedLeft,
      decide_eq_false (by omega), Bool.false_and]
  have isBit :=
    @Region.bit_write shifted.longs maskp 0 index
      (word ||| chunk.setWidth 64)
  rw [Nat.cast_zero, add_zero] at isBit
  rw [isBit]
  split
  · rename_i inFirst
    have position : index % 64 = index := by
      omega
    rw [Region.bit, inFirst, Nat.cast_zero, add_zero, atWord,
      Option.getD_some] at isClear
    rw [BitVec.getLsbD_or, isClear, Bool.false_or,
      BitVec.getLsbD_setWidth, position, noUnused index unused,
      Bool.and_false]
  · exact isClear

/-- The loop of `__bitmap_parse` over the chunks. -/
structure ParsingTidily
    (memory : CMemory)
    (maskp : Int)
    (nmaskbits : Nat)
    (vars : ParseVars)
    (after : CMemory) : Prop where
  tidy : Tidy memory maskp nmaskbits after
  first : vars.nchunks = 0 → vars.nbits = 0
  counted :
    nmaskbits < 32 →
    0 ≤ vars.nbits.toInt ∧ vars.nbits.toInt ≤ nmaskbits

/-- The bits of the first chunk are counted. -/
theorem getLsbD_of_fls_le
    {chunk : BitVec 32}
    {index : Nat}
    (atLeast : fls chunk ≤ index) :
    chunk.getLsbD index = false := by
  rw [fls_eq_size] at atLeast
  exact Nat.testBit_lt_two_pow (Nat.size_le.mp atLeast)

/-- A chunk that is accepted has no unused bits. -/
theorem ParsingTidily.noUnused
    {vars : ParseVars}
    {chunk : BitVec 32}
    (parsing : ParsingTidily memory maskp nmaskbits vars before)
    (fits :
      (vars.nbits +
        .ofNat 32 (if vars.nchunks + 1 = 1 then fls chunk
          else chunkSz)).toInt ≤ nmaskbits) :
    (∀ index, nmaskbits ≤ index → chunk.getLsbD index = false) ∧
      (nmaskbits < 32 →
        0 ≤
          (vars.nbits +
            .ofNat 32 (if vars.nchunks + 1 = 1 then fls chunk
              else chunkSz)).toInt) := by
  by_cases large : 32 ≤ nmaskbits
  · refine ⟨fun index unused => ?_, by omega⟩
    exact BitVec.getLsbD_of_ge _ _ (by omega)
  · obtain ⟨nonnegative, atMost⟩ := parsing.counted (by omega)
    by_cases isFirst : vars.nchunks = 0
    · have width : fls chunk ≤ 32 := by
        rw [fls_eq_size]
        exact Nat.size_le.mpr chunk.isLt
      rw [isFirst, if_pos rfl, parsing.first isFirst,
        BitVec.ofNat_eq_ofNat, BitVec.zero_add,
        toInt_ofNat_of_lt (by omega)] at fits ⊢
      exact ⟨fun index unused => getLsbD_of_fls_le (by omega),
        fun _ => by omega⟩
    · have value : vars.nbits.toNat < 32 := by
        have isNat := toNat_of_toInt
          (Int.toNat_of_nonneg nonnegative).symm
        omega
      have sum :
          vars.nbits + .ofNat 32 chunkSz =
            BitVec.ofNat 32 (vars.nbits.toNat + 32) := by
        apply BitVec.eq_of_toNat_eq
        rw [BitVec.toNat_add, BitVec.toNat_ofNat, BitVec.toNat_ofNat,
          chunkSz]
      rw [if_neg (by omega), sum, toInt_ofNat_of_lt (by omega)] at fits
      omega

/-- What one round of the loop over the chunks leads to. -/
def TidyStep
    (memory : CMemory)
    (maskp : Int)
    (nmaskbits : Nat) :
    Flow ParseVars Int → CMemory → Prop
  | .next vars, after => ParsingTidily memory maskp nmaskbits vars after
  | .done status, after => status = 0 → Tidy memory maskp nmaskbits after

/-- The end of a round of the loop over the chunks. -/
theorem ParsingTidily.permits_parseMore
    {vars : ParseVars}
    (parsing : ParsingTidily memory maskp nmaskbits vars before) :
    (parseMore vars).Permits before (TidyStep memory maskp nmaskbits) := by
  rw [parseMore, permits_ite]
  split
  · exact permits_pure.mpr parsing
  · exact permits_pure.mpr fun _ => parsing.tidy

/-- One round of the loop over the chunks. -/
theorem ParsingTidily.permits_parseChunk
    {vars : ParseVars}
    (positive : 1 ≤ nmaskbits)
    (parsing : ParsingTidily memory maskp nmaskbits vars before) :
    (parseChunk maskp nmaskbits vars).Permits before
      (TidyStep memory maskp nmaskbits) := by
  rw [parseChunk, permits_bind]
  refine (permits_parseChar _).weaken ?_
  intro scanned between result
  obtain ⟨rfl, isError⟩ := result
  cases scanned with
  | error status =>
      exact permits_pure.mpr fun isZero =>
        absurd isZero (isError status rfl)
  | ok read =>
      dsimp only
      rw [permits_ite]
      split
      · exact permits_pure.mpr fun isZero => absurd isZero (by decide)
      · rw [permits_ite]
        split
        · apply ParsingTidily.permits_parseMore
          exact ⟨parsing.tidy, parsing.first, parsing.counted⟩
        · have inserted :=
            @Tidy.insertChunk memory between maskp nmaskbits read.chunk
              parsing.tidy positive
          rw [ensures_bind] at inserted
          rw [permits_bind]
          refine inserted.permits.weaken ?_
          intro _ shifted loading
          rw [ensures_bind] at loading
          rw [permits_bind]
          refine loading.permits.weaken ?_
          intro word loaded storing
          rw [permits_bind]
          refine storing.permits.weaken ?_
          intro _ after tidy
          generalize isCount :
            vars.nbits +
              .ofNat 32 (if vars.nchunks + 1 = 1 then fls read.chunk
                else chunkSz) = nbits
          rw [permits_ite]
          split
          · exact permits_pure.mpr fun isZero =>
              absurd isZero (by decide)
          · rename_i fits
            rw [← isCount, not_lt] at fits
            obtain ⟨noUnused, nonnegative⟩ := parsing.noUnused fits
            rw [isCount] at fits nonnegative
            apply ParsingTidily.permits_parseMore
            refine ⟨tidy noUnused, ?_, fun small =>
              ⟨nonnegative small, fits⟩⟩
            intro isZero
            exact absurd isZero (Nat.succ_ne_zero _)

/-- `__bitmap_parse` leaves the unused bits zero if it succeeds. -/
theorem permits_bitmapParse
    {buf : Int}
    {buflen : Nat}
    (positive : 1 ≤ nmaskbits)
    (mapped : memory.longs.Mapped maskp (bitsToLongs nmaskbits)) :
    (bitmapParse maskp nmaskbits buf buflen).Permits memory
      fun status after =>
        status = 0 → Tidy memory maskp nmaskbits after := by
  rw [bitmapParse, permits_bind]
  refine ((ensures_bitmapZero mapped).permits).weaken ?_
  intro _ zeroed result
  obtain ⟨-, stillMapped, same, isZero⟩ := result
  refine permits_loop (ParsingTidily memory maskp nmaskbits) ?_
    ⟨⟨stillMapped, same, fun index inside _ => isZero index inside⟩,
      fun _ => rfl, fun _ => ⟨le_rfl, by simp⟩⟩
  intro vars state parsing
  refine (parsing.permits_parseChunk positive).weaken ?_
  intro flow after step
  cases flow <;> exact step

end Parse

section Maps

variable {memory : CMemory}
variable {dst src old new orig relmap : Int}
variable {nbits sz : Nat}
variable {bitmaps : List Int}

/-- The same state in both runs, which is tidy. -/
def SameTidy
    (memory : CMemory)
    (dst : Int)
    (nbits : Nat)
    (bitmaps : List Int)
    (one other : CMemory) : Prop :=
  one = other ∧ Tidy memory dst nbits one ∧
    ∀ bitmap ∈ bitmaps, one.longs.Mapped bitmap (bitsToLongs nbits)

/-- A state stays tidy when a used bit of the result is set. -/
theorem steady_sameTidy :
    Steady nbits dst bitmaps (SameTidy memory dst nbits bitmaps) where
  agree := by
    intro one other areSame
    obtain ⟨rfl, -, mapped⟩ := areSame
    exact fun bitmap isMember =>
      ⟨mapped bitmap isMember, mapped bitmap isMember, fun _ _ => rfl⟩
  setBit := by
    intro one other areSame nr used
    obtain ⟨rfl, tidy, mapped⟩ := areSame
    have inside : nr / 64 < bitsToLongs nbits := by
      simp only [bitsToLongs]
      omega
    have both :=
      (tidy.setBit used).both
        (ensures_setBit_overlap tidy.mapped inside).permits
    refine both.twin.weaken ?_
    intro _ after otherAfter result
    obtain ⟨rfl, stillTidy, -, -, stillMapped, -⟩ := result
    exact ⟨rfl, stillTidy, fun bitmap isMember =>
      stillMapped _ _ (mapped bitmap isMember)⟩

/-- A state is tidy when the result has been cleared. -/
theorem twin_bitmapZero
    (mapped : memory.longs.Mapped dst (bitsToLongs nbits))
    (allMapped :
      ∀ bitmap ∈ bitmaps,
        memory.longs.Mapped bitmap (bitsToLongs nbits)) :
    (bitmapZero dst nbits).Twin memory memory
      fun _ => SameTidy memory dst nbits bitmaps := by
  refine (ensures_bitmapZero mapped).twin.weaken ?_
  intro _ after otherAfter result
  obtain ⟨rfl, -, stillMapped, same, isZero⟩ := result
  exact ⟨rfl, ⟨stillMapped, same, fun index inside _ =>
    isZero index inside⟩, fun bitmap isMember =>
    same.mapped stillMapped (allMapped bitmap isMember)⟩

/-- `bitmap_remap` leaves the unused bits zero. -/
theorem tidy_bitmapRemap
    (positive : 1 ≤ nbits)
    (mapped : memory.longs.Mapped dst (bitsToLongs nbits))
    (allMapped :
      ∀ bitmap ∈ [src, old, new],
        memory.longs.Mapped bitmap (bitsToLongs nbits))
    (clear : UnusedClear memory dst nbits) :
    (bitmapRemap dst src old new nbits).Ensures memory
      fun _ => Tidy memory dst nbits := by
  by_cases inPlace : dst = src
  · rw [bitmapRemap, if_pos inPlace]
    exact ensures_pure.mpr (.refl mapped clear)
  · refine (steady_sameTidy.bitmapRemap positive (by simp) (by simp)
      (by simp) inPlace
      (twin_bitmapZero mapped allMapped)).ensures.weaken ?_
    intro _ after result
    exact result.2.1

/-- `bitmap_onto` leaves the unused bits zero. -/
theorem tidy_bitmapOnto
    (mapped : memory.longs.Mapped dst (bitsToLongs nbits))
    (allMapped :
      ∀ bitmap ∈ [orig, relmap],
        memory.longs.Mapped bitmap (bitsToLongs nbits))
    (clear : UnusedClear memory dst nbits) :
    (bitmapOnto dst orig relmap nbits).Ensures memory
      fun _ => Tidy memory dst nbits := by
  by_cases inPlace : dst = orig
  · rw [bitmapOnto, if_pos inPlace]
    exact ensures_pure.mpr (.refl mapped clear)
  · refine (steady_sameTidy.bitmapOnto (by simp) (by simp) inPlace
      (twin_bitmapZero mapped allMapped)).ensures.weaken ?_
    intro _ after result
    exact result.2.1

/-- `bitmap_fold` leaves the unused bits zero. -/
theorem tidy_bitmapFold
    (mapped : memory.longs.Mapped dst (bitsToLongs nbits))
    (source : memory.longs.Mapped orig (bitsToLongs nbits))
    (clear : UnusedClear memory dst nbits) :
    (bitmapFold dst orig sz nbits).Ensures memory
      fun _ => Tidy memory dst nbits := by
  by_cases inPlace : dst = orig
  · rw [bitmapFold, if_pos inPlace]
    exact ensures_pure.mpr (.refl mapped clear)
  · refine (steady_sameTidy.bitmapFold (by simp) inPlace
      (twin_bitmapZero mapped (by simpa using source :
        ∀ bitmap ∈ [orig],
          memory.longs.Mapped bitmap
            (bitsToLongs nbits)))).ensures.weaken ?_
    intro _ after result
    exact result.2.1

end Maps

section Regions

variable {memory : CMemory}
variable {bitmap : Int}
variable {nbits pos order : Nat}

/-- A region inside of the bitmap has no unused bits. -/
theorem tidy_regOp_alloc
    (mapped : memory.longs.Mapped bitmap (bitsToLongs nbits))
    (clear : UnusedClear memory bitmap nbits)
    (inside : pos + 2 ^ order ≤ nbits) :
    (regOp bitmap pos order .alloc).Ensures memory
      fun _ => Tidy memory bitmap nbits := by
  refine (ensures_regOp_alloc mapped inside).weaken ?_
  intro _ after becomes
  refine becomes.tidy fun index bound unused => ?_
  have untouched : ¬Touched pos order index := by
    intro touched
    have below := touched.lt
    omega
  rw [clear index bound unused, decide_eq_false untouched, Bool.or_self]

/-- `bitmap_release_region` only clears bits. -/
theorem tidy_bitmapReleaseRegion
    (mapped : memory.longs.Mapped bitmap (bitsToLongs nbits))
    (clear : UnusedClear memory bitmap nbits)
    (inside : pos + 2 ^ order ≤ nbits) :
    (bitmapReleaseRegion bitmap pos order).Ensures memory
      fun _ => Tidy memory bitmap nbits := by
  rw [bitmapReleaseRegion, ensures_bind]
  refine (ensures_regOp_release mapped inside).weaken ?_
  intro _ after becomes
  refine ensures_pure.mpr (becomes.tidy fun index bound unused => ?_)
  rw [clear index bound unused, Bool.false_and]

/-- `bitmap_allocate_region` of a region inside of the bitmap. -/
theorem tidy_bitmapAllocateRegion
    (mapped : memory.longs.Mapped bitmap (bitsToLongs nbits))
    (clear : UnusedClear memory bitmap nbits)
    (inside : pos + 2 ^ order ≤ nbits) :
    (bitmapAllocateRegion bitmap pos order).Ensures memory
      fun _ => Tidy memory bitmap nbits := by
  rw [bitmapAllocateRegion, ensures_bind]
  refine (ensures_regOp_isFree mapped inside).weaken ?_
  intro ret between result
  obtain ⟨rfl, -⟩ := result
  rw [ensures_ite]
  split
  · exact ensures_pure.mpr (.refl mapped clear)
  · rw [ensures_bind]
    refine (tidy_regOp_alloc mapped clear inside).weaken ?_
    intro _ after tidy
    exact ensures_pure.mpr tidy

/-- `REG_OP_ISFREE` only reads. -/
theorem preserves_regOp_isFree
    {property : CMemory → Prop}
    (pos : Int) :
    (regOp bitmap pos order .isFree).Preserves property := by
  refine Preserves.bind (.anyUp (fun i => ?_) _) fun found =>
    preserves_pure _
  exact Preserves.bind (preserves_reads _) fun word => preserves_pure _

/-- `bitmap_find_free_region` when the region it finds is inside. -/
theorem permits_bitmapFindFreeRegion
    (mapped : memory.longs.Mapped bitmap (bitsToLongs nbits))
    (clear : UnusedClear memory bitmap nbits) :
    (bitmapFindFreeRegion bitmap nbits order).Permits memory
      fun result after =>
        0 ≤ result → result + 2 ^ order ≤ nbits →
          Tidy memory bitmap nbits after := by
  refine permits_loop (fun _ after => after = memory) ?_ rfl
  intro pos state same
  subst same
  rw [findRegion, permits_ite]
  split
  · rw [permits_bind]
    refine (preserves_regOp_isFree _ state
      (Eq.refl state : (fun other => state = other) state)).weaken ?_
    intro free between isSame
    obtain rfl : state = between := isSame
    rw [permits_ite]
    split
    · exact permits_pure.mpr rfl
    · rw [permits_bind]
      by_cases inside : 0 ≤ pos.toInt ∧ pos.toInt + 2 ^ order ≤ nbits
      · obtain ⟨number, isNumber⟩ := Int.eq_ofNat_of_zero_le inside.1
        rw [isNumber]
        refine ((tidy_regOp_alloc mapped clear ?_).permits).weaken ?_
        · have atMost := inside.2
          rw [isNumber] at atMost
          exact_mod_cast atMost
        · intro _ after tidy
          exact permits_pure.mpr fun _ _ => tidy
      · intro ret after _
        exact permits_pure.mpr fun atLeast atMost =>
          absurd ⟨atLeast, atMost⟩ inside
  · exact permits_pure.mpr fun atLeast => absurd atLeast (by decide)

/-- `bitmap_find_free_region` when the end of a region is an `int`. -/
theorem tidy_bitmapFindFreeRegion
    (mapped : memory.longs.Mapped bitmap (bitsToLongs nbits))
    (clear : UnusedClear memory bitmap nbits)
    (bound : nbits + 2 ^ order < 2 ^ 31) :
    (bitmapFindFreeRegion bitmap nbits order).Ensures memory
      fun _ => Tidy memory bitmap nbits := by
  refine (ensures_bitmapFindFreeRegion mapped bound).weaken ?_
  intro result after outcome
  rcases outcome with ⟨pos, -, -, inside, -, -, becomes⟩ | ⟨-, rfl, -⟩
  · refine becomes.tidy fun index inWords unused => ?_
    have outside : ¬InRegion pos order index := by
      intro inRegion
      have below := inRegion.2
      omega
    rw [allocated, clear index inWords unused, decide_eq_false outside,
      Bool.or_self]
  · exact .refl mapped clear

end Regions

end LibKern.Bitmap
