import LibKern.BitmapParse
import Mathlib.Data.List.TakeWhile

namespace LibKern.Bitmap

/-!
# The grammar of bitmap texts

The documented texts are lists of chunks between blanks whose number fits into
the bitmap.  `__bitmap_parse` accepts exactly these texts, except that it also
accepts a comma at the end of an exhausted buffer, and that its counter of
significant bits can wrap around for the largest bitmaps.
-/

open Program

section Forms

variable {comma : Prop}
variable {text : List Byte}
variable {chunks others : List (List Byte)}

/-- The documented form of a text: blanks, chunks, blanks. -/
def HexForm (text : List Byte) (chunks : List (List Byte)) : Prop :=
  ∃ before after,
    text = before ++ joined chunks ++ after ∧
      Blank before ∧ Blank after ∧ chunks ≠ [] ∧
      ∀ digits ∈ chunks, Chunk digits

/-- Blanks and chunks with a comma at the end. -/
def CommaForm (text : List Byte) (chunks : List (List Byte)) : Prop :=
  ∃ before,
    text = before ++ joined chunks ++ [ascii ','] ∧
      Blank before ∧ chunks ≠ [] ∧
      ∀ digits ∈ chunks, Chunk digits

/-- Joined chunks start with a digit. -/
theorem head_joined
    (nonempty : chunks ≠ [])
    (isChunk : ∀ digits ∈ chunks, Chunk digits)
    (tail : List Byte) :
    ∀ c ∈ (joined chunks ++ tail).head?, isspace c = false := by
  cases chunks with
  | nil =>
      exact absurd rfl nonempty
  | cons digits rest =>
      have chunk := isChunk digits (by simp)
      obtain ⟨first, others, rfl⟩ :=
        List.exists_cons_of_ne_nil chunk.nonempty
      have isDigit := chunk.hexadecimal first (by simp)
      have starts :
          (joined ((first :: others) :: rest) ++ tail).head? =
            some first := by
        cases rest with
        | nil =>
            simp
        | cons next rest =>
            simp [joined_cons]
      rw [starts]
      intro c isFirst
      obtain rfl : first = c := Option.some.inj isFirst
      exact (isxdigit_separate first isDigit).1

/-- Joined chunks contain no null character. -/
theorem ne_zero_of_mem_joined
    (isChunk : ∀ digits ∈ chunks, Chunk digits) :
    ∀ c ∈ joined chunks, c ≠ 0 := by
  induction chunks with
  | nil =>
      simp [joined]
  | cons digits rest inductionHypothesis =>
      rw [List.forall_mem_cons] at isChunk
      have digitNonzero : ∀ c ∈ digits, c ≠ 0 :=
        fun c isDigit =>
          (isxdigit_separate c (isChunk.1.hexadecimal c isDigit)).2.2
      cases rest with
      | nil =>
          simpa using digitNonzero
      | cons next others =>
          intro c isMember
          rw [joined_cons digits (by simp), List.mem_append,
            List.mem_cons] at isMember
          rcases isMember with inDigits | rfl | inRest
          · exact digitNonzero c inDigits
          · decide
          · exact inductionHypothesis isChunk.2 c inRest

/-- The end of a text after its chunks. -/
def Ending (comma : Prop) (tail : List Byte) : Prop :=
  Blank tail ∨ comma ∧ tail = [ascii ',']

/-- Chunks in the form of joined chunks. -/
theorem chunks_iff_joined :
    Chunks comma text chunks ↔
      chunks ≠ [] ∧ (∀ digits ∈ chunks, Chunk digits) ∧
        ∃ tail, text = joined chunks ++ tail ∧ Ending comma tail := by
  constructor
  · intro isChunks
    induction isChunks with
    | @last digits blanks chunk blank =>
        exact ⟨by simp, by simpa using chunk, blanks, by simp, .inl blank⟩
    | trailing allowed chunk =>
        exact ⟨by simp, by simpa using chunk, [ascii ','], by simp,
          .inr ⟨allowed, rfl⟩⟩
    | more chunk _ inductionHypothesis =>
        obtain ⟨nonempty, isChunk, tail, rfl, ending⟩ :=
          inductionHypothesis
        refine ⟨by simp, List.forall_mem_cons.mpr ⟨chunk, isChunk⟩, tail,
          ?_, ending⟩
        simp [joined_cons _ nonempty]
  · intro form
    obtain ⟨nonempty, isChunk, tail, rfl, ending⟩ := form
    induction chunks with
    | nil =>
        exact absurd rfl nonempty
    | cons digits rest inductionHypothesis =>
        rw [List.forall_mem_cons] at isChunk
        cases rest with
        | nil =>
            rw [joined_singleton]
            rcases ending with blank | ⟨allowed, rfl⟩
            · exact .last isChunk.1 blank
            · exact .trailing allowed isChunk.1
        | cons next others =>
            have more := inductionHypothesis (by simp) isChunk.2
            rw [joined_cons _ (by simp), List.append_assoc,
              List.cons_append]
            exact .more isChunk.1 more

/-- Leading blanks end where the chunks begin. -/
theorem dropWhile_joined
    {before : List Byte}
    (blank : Blank before)
    (nonempty : chunks ≠ [])
    (isChunk : ∀ digits ∈ chunks, Chunk digits)
    (tail : List Byte) :
    (before ++ joined chunks ++ tail).dropWhile isspace =
      joined chunks ++ tail := by
  rw [List.append_assoc]
  exact (takeWhile_append_eq blank (head_joined nonempty isChunk tail)).2

/-- The chunks after the leading blanks make up one of the two forms. -/
theorem chunks_dropWhile_iff :
    Chunks comma (text.dropWhile isspace) chunks ↔
      HexForm text chunks ∨ comma ∧ CommaForm text chunks := by
  rw [chunks_iff_joined]
  constructor
  · intro form
    obtain ⟨nonempty, isChunk, tail, isRest, ending⟩ := form
    have whole :
        text = text.takeWhile isspace ++ joined chunks ++ tail := by
      rw [List.append_assoc, ← isRest, List.takeWhile_append_dropWhile]
    have blank : Blank (text.takeWhile isspace) :=
      fun _ isTaken => List.mem_takeWhile_imp isTaken
    rcases ending with blankTail | ⟨allowed, rfl⟩
    · exact .inl ⟨_, _, whole, blank, blankTail, nonempty, isChunk⟩
    · exact .inr ⟨allowed, _, whole, blank, nonempty, isChunk⟩
  · intro form
    rcases form with ⟨before, tail, rfl, blank, blankTail, nonempty, isChunk⟩ |
      ⟨allowed, before, rfl, blank, nonempty, isChunk⟩
    · exact ⟨nonempty, isChunk, tail,
        dropWhile_joined blank nonempty isChunk tail, .inl blankTail⟩
    · exact ⟨nonempty, isChunk, _,
        dropWhile_joined blank nonempty isChunk _, .inr ⟨allowed, rfl⟩⟩

/-- The chunks of a text in the documented form. -/
theorem HexForm.isChunks
    (form : HexForm text chunks) :
    Chunks comma (text.dropWhile isspace) chunks :=
  chunks_dropWhile_iff.mpr (.inl form)

/-- The chunks of a text with a comma at its end. -/
theorem CommaForm.isChunks
    (form : CommaForm text chunks)
    (allowed : comma) :
    Chunks comma (text.dropWhile isspace) chunks :=
  chunks_dropWhile_iff.mpr (.inr ⟨allowed, form⟩)

/-- A text with a comma at its end is not in the documented form. -/
theorem CommaForm.not_hexForm
    (commaForm : CommaForm text chunks) :
    ¬HexForm text others := by
  intro form
  have sameChunks : others = chunks :=
    Chunks.unique form.isChunks (commaForm.isChunks trivial)
  subst sameChunks
  obtain ⟨before, rfl, blank, nonempty, isChunk⟩ := commaForm
  obtain ⟨other, tail, same, otherBlank, blankTail, -, -⟩ := form
  have dropped := congrArg (List.dropWhile isspace) same
  rw [dropWhile_joined blank nonempty isChunk,
    dropWhile_joined otherBlank nonempty isChunk] at dropped
  obtain rfl : [ascii ','] = tail := List.append_cancel_left dropped
  exact not_blank_comma [] blankTail

end Forms

section Grammar

variable {memory : CMemory}
variable {maskp buf : Int}
variable {nmaskbits buflen : Nat}
variable {text bytes : List Byte}
variable {chunks : List (List Byte)}

/-- The bytes up to the first null character or the end of the buffer. -/
def textOf (bytes : List Byte) (buflen : Nat) : List Byte :=
  (bytes.take buflen).takeWhile (· ≠ 0)

/-- What follows the text of a buffer. -/
theorem textOf_ending
    (complete : buflen ≤ bytes.length ∨ 0 ∈ bytes) :
    ∃ rest,
      bytes = textOf bytes buflen ++ rest ∧
        ((textOf bytes buflen).length = buflen ∨
          (textOf bytes buflen).length < buflen ∧
            rest.head? = some 0) := by
  have parts :
      textOf bytes buflen ++
          (bytes.take buflen).dropWhile (· ≠ 0) =
        bytes.take buflen :=
    List.takeWhile_append_dropWhile
  have whole := List.take_append_drop buflen bytes
  refine ⟨(bytes.take buflen).dropWhile (· ≠ 0) ++ bytes.drop buflen,
    ?_, ?_⟩
  · rw [← List.append_assoc, parts, whole]
  have length := congrArg List.length parts
  have stops := List.head?_dropWhile_not (· ≠ (0 : Byte)) (bytes.take buflen)
  rw [List.length_append, List.length_take] at length
  cases dropped : (bytes.take buflen).dropWhile (· ≠ 0) with
  | nil =>
      left
      rw [dropped, List.append_nil] at parts
      rw [dropped, List.length_nil] at length
      rcases complete with enough | terminated
      · omega
      · by_contra short
        rw [List.take_of_length_le (by omega)] at parts
        rw [← parts] at terminated
        simpa using List.mem_takeWhile_imp terminated
  | cons c rest =>
      right
      rw [dropped] at stops
      rw [dropped, List.length_cons] at length
      exact ⟨by omega, by simpa using stops⟩

/-- A buffer contains a text, if it has enough bytes or is terminated. -/
theorem input_textOf
    (stores : memory.chars.Stores buf bytes)
    (complete : buflen ≤ bytes.length ∨ 0 ∈ bytes) :
    Input ((textOf bytes buflen).length = buflen) memory.chars buf buflen
      (textOf bytes buflen) := by
  obtain ⟨rest, whole, ending⟩ := textOf_ending complete
  rw [whole] at stores
  refine ⟨stores.of_append, ?_, ?_⟩
  · intro c isMember
    simpa using List.mem_takeWhile_imp isMember
  · rcases ending with isExhausted | ⟨short, isNull⟩
    · exact .inl ⟨isExhausted, isExhausted⟩
    · refine .inr ⟨by omega, short, stores _ _ ?_⟩
      rw [List.getElem?_append_right le_rfl, Nat.sub_self]
      simpa [List.head?_eq_getElem?] using isNull

/-- `__bitmap_parse` accepts the documented texts and no others. -/
def MeetsGrammar
    (memory : CMemory)
    (maskp : Int)
    (nmaskbits : Nat)
    (buf : Int)
    (buflen : Nat)
    (text : List Byte) : Prop :=
  (bitmapParse maskp nmaskbits buf buflen).Ensures memory
    fun status after =>
      (status = 0 ↔
          ∃ chunks,
            HexForm text chunks ∧ chunksValue chunks < 2 ^ nmaskbits) ∧
        (∀ chunks,
          HexForm text chunks →
          chunksValue chunks < 2 ^ nmaskbits →
          ∀ index < bitsToLongs nmaskbits * 64,
            after.longs.bit maskp index =
              (chunksValue chunks).testBit index) ∧
        (status ≠ 0 → status = -einval ∨ status = -eoverflow)

/--
A text that the code misreads: a comma ends an exhausted buffer, or a number
that does not fit passes the check of the counter.
-/
def Misread
    (nmaskbits buflen : Nat)
    (text : List Byte) : Prop :=
  ∃ chunks,
    Passes nmaskbits (chunksValue chunks) ∧
      (text.length = buflen ∧ CommaForm text chunks ∨
        HexForm text chunks ∧ 2 ^ nmaskbits ≤ chunksValue chunks)

/-- The verdict on the text of a buffer. -/
private theorem ensures_verdict
    (positive : 1 ≤ nmaskbits)
    (mapped : memory.longs.Mapped maskp (bitsToLongs nmaskbits))
    (input :
      Input (text.length = buflen) memory.chars buf buflen text) :
    (bitmapParse maskp nmaskbits buf buflen).Ensures memory
      (Verdict (text.length = buflen) maskp nmaskbits 0 0
        (text.dropWhile isspace)) := by
  have whole :=
    List.takeWhile_append_dropWhile (p := isspace) (l := text)
  apply ensures_bitmapParse positive mapped
  · rw [whole]
    exact input
  · exact fun _ isTaken => List.mem_takeWhile_imp isTaken
  · intro c isHead
    have notBlank := List.head?_dropWhile_not isspace text
    rw [Option.mem_def.mp isHead] at notBlank
    exact notBlank

/-- The counter fits for the chunks of a text whose number passes. -/
theorem countFits_iff_of_chunks
    {comma : Prop}
    (bound : nmaskbits < 2 ^ 31)
    (isChunks : Chunks comma text chunks) :
    CountFits nmaskbits 0 chunks ↔
      Passes nmaskbits (chunksValue chunks) := by
  have isChunk := (chunks_iff_joined.mp isChunks).2.1
  have zeroPasses : Passes nmaskbits 0 := .inl (Nat.two_pow_pos _)
  simpa using countFits_iff_passes bound isChunk zeroPasses

/-- The code meets its grammar unless it misreads the text. -/
theorem meetsGrammar_iff
    (positive : 1 ≤ nmaskbits)
    (bound : nmaskbits < 2 ^ 31)
    (mapped : memory.longs.Mapped maskp (bitsToLongs nmaskbits))
    (input :
      Input (text.length = buflen) memory.chars buf buflen text) :
    MeetsGrammar memory maskp nmaskbits buf buflen text ↔
      ¬Misread nmaskbits buflen text := by
  have verdict := ensures_verdict positive mapped input
  constructor
  · intro meets misread
    obtain ⟨chunks, passes, form⟩ := misread
    have isChunks :
        Chunks (text.length = buflen) (text.dropWhile isspace) chunks := by
      rcases form with ⟨isExhausted, commaForm⟩ | ⟨hexForm, -⟩
      · exact commaForm.isChunks isExhausted
      · exact hexForm.isChunks
    have fits := (countFits_iff_of_chunks bound isChunks).mpr passes
    obtain ⟨status, after, returned, accepted, -, -⟩ := meets
    rcases verdict.of_returns returned with ⟨isZero, -⟩ | ⟨-, none⟩
    · obtain ⟨others, otherForm, otherFits⟩ := accepted.mp isZero
      rcases form with ⟨-, commaForm⟩ | ⟨hexForm, tooLarge⟩
      · exact commaForm.not_hexForm otherForm
      · have same : chunks = others :=
          isChunks.unique otherForm.isChunks
        rw [same] at tooLarge
        omega
    · exact none chunks isChunks fits
  · intro notMisread
    refine verdict.weaken ?_
    intro status after outcome
    rcases outcome with ⟨rfl, chunks, isChunks, countFits, represented⟩ |
      ⟨isError, none⟩
    · have passes :=
        (countFits_iff_of_chunks bound isChunks).mp countFits
      have form : HexForm text chunks := by
        rcases chunks_dropWhile_iff.mp isChunks with hexForm | commaForm
        · exact hexForm
        · exact absurd ⟨chunks, passes, .inl commaForm⟩ notMisread
      have fits : chunksValue chunks < 2 ^ nmaskbits := by
        by_contra tooLarge
        exact notMisread
          ⟨chunks, passes, .inr ⟨form, not_lt.mp tooLarge⟩⟩
      refine ⟨iff_of_true rfl ⟨chunks, form, fits⟩, ?_, by simp⟩
      intro others otherForm otherFits
      have same : chunks = others :=
        isChunks.unique otherForm.isChunks
      rw [← same]
      simpa [Represented] using represented (by simpa using fits)
    · have rejected :
          ∀ chunks, HexForm text chunks →
            ¬chunksValue chunks < 2 ^ nmaskbits := by
        intro chunks form fits
        have isChunks :
            Chunks (text.length = buflen) (text.dropWhile isspace) chunks :=
          form.isChunks
        exact none chunks isChunks
          ((countFits_iff_of_chunks bound isChunks).mpr (.inl fits))
      refine ⟨iff_of_false ?_ ?_, ?_, fun _ => isError⟩
      · rcases isError with rfl | rfl <;> decide
      · intro accepted
        obtain ⟨chunks, form, fits⟩ := accepted
        exact rejected chunks form fits
      · intro chunks form fits
        exact absurd fits (rejected chunks form)

/--
`__bitmap_parse` accepts exactly the documented texts, if and only if the text
in the buffer is not misread.
-/
theorem bitmapParse_meetsGrammar_iff
    (buflen : BitVec 32)
    (positive : 1 ≤ nmaskbits)
    (bound : nmaskbits < 2 ^ 31)
    (mapped : memory.longs.Mapped maskp (bitsToLongs nmaskbits))
    (stores : memory.chars.Stores buf bytes)
    (complete : buflen.toNat ≤ bytes.length ∨ 0 ∈ bytes) :
    MeetsGrammar memory maskp nmaskbits buf buflen.toNat
        (textOf bytes buflen.toNat) ↔
      ¬Misread nmaskbits buflen.toNat (textOf bytes buflen.toNat) :=
  meetsGrammar_iff positive bound mapped (input_textOf stores complete)

/-- A memory with a bitmap of one word and a text. -/
def sampleMemory (bytes : List Byte) : CMemory where
  longs := .ofList [0]
  chars := .ofList bytes

/-- The text `1,f` in a buffer of eight bytes is not misread. -/
theorem bitmapParse_meetsGrammar_of_sample :
    MeetsGrammar
      (sampleMemory [ascii '1', ascii ',', ascii 'f', 0]) 0 40 0 8
      (textOf [ascii '1', ascii ',', ascii 'f', 0] 8) := by
  have sample :
      MeetsGrammar
          (sampleMemory [ascii '1', ascii ',', ascii 'f', 0]) 0 40 0 8
          (textOf [ascii '1', ascii ',', ascii 'f', 0] 8) ↔
        ¬Misread 40 8
          (textOf [ascii '1', ascii ',', ascii 'f', 0] 8) :=
    bitmapParse_meetsGrammar_iff 8#32 (by decide) (by decide)
      (Region.mapped_ofList (by decide)) (Region.stores_ofList _)
      (.inr (by decide))
  have isText :
      textOf [ascii '1', ascii ',', ascii 'f', 0] 8 =
        [ascii '1', ascii ',', ascii 'f'] := by
    decide
  rw [sample, isText]
  intro misread
  obtain ⟨chunks, -, ⟨isExhausted, -⟩ | ⟨form, tooLarge⟩⟩ := misread
  · exact absurd isExhausted (by decide)
  · have sampleForm :
        HexForm [ascii '1', ascii ',', ascii 'f']
          [[ascii '1'], [ascii 'f']] := by
      refine ⟨[], [], by decide, by simp [Blank], by simp [Blank],
        by simp, ?_⟩
      rw [List.forall_mem_cons, List.forall_mem_singleton]
      exact ⟨⟨by simp, by decide, by decide⟩,
        ⟨by simp, by decide, by decide⟩⟩
    have same : chunks = [[ascii '1'], [ascii 'f']] :=
      Chunks.unique (form.isChunks : Chunks False _ _)
        sampleForm.isChunks
    rw [same] at tooLarge
    exact absurd tooLarge (by decide)

/-- The text `1,` in a buffer of two bytes is accepted. -/
theorem bitmapParse_accepts_trailing_comma :
    (bitmapParse 0 8 0 2).Ensures
        (sampleMemory [ascii '1', ascii ','])
        (fun status _ => status = 0) ∧
      (∀ chunks, ¬HexForm [ascii '1', ascii ','] chunks) ∧
      ¬MeetsGrammar (sampleMemory [ascii '1', ascii ',']) 0 8 0 2
        (textOf [ascii '1', ascii ','] 2) := by
  have accepted :
      (bitmapParse 0 8 0 2).Ensures
        (sampleMemory [ascii '1', ascii ','])
        (fun status _ => status = 0) := by
    apply Ensures.of_exec 10
    decide +kernel
  have commaForm :
      CommaForm [ascii '1', ascii ','] [[ascii '1']] := by
    refine ⟨[], by decide, by simp [Blank], by simp, ?_⟩
    rw [List.forall_mem_singleton]
    exact ⟨by simp, by decide, by decide⟩
  refine ⟨accepted, fun chunks => commaForm.not_hexForm, ?_⟩
  intro meets
  obtain ⟨status, after, returned, isZero⟩ := accepted
  obtain ⟨chunks, form, -⟩ := ((meets.of_returns returned).1).mp isZero
  exact commaForm.not_hexForm form

end Grammar

end LibKern.Bitmap
