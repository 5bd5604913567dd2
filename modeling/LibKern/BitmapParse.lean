import LibKern.BitmapShift

namespace LibKern.Bitmap

/-!
# The language that `__bitmap_parse` accepts

The text of a bitmap consists of chunks of hexadecimal digits.  The parser
reads one chunk after the other; it stops at a character that ends the string
or when the buffer is exhausted.  The two ends are not treated alike: after a
comma, an exhausted buffer ends the text without another chunk.
-/

open Program

section Digits

/-- The number of a chunk. -/
def hexNumber (digits : List Byte) : Nat :=
  numeralValue 16 unhex digits

/-- A chunk has digits only, at least one, and a number of 32 bits. -/
structure Chunk (digits : List Byte) : Prop where
  nonempty : digits ≠ []
  hexadecimal : ∀ c ∈ digits, isxdigit c = true
  small : hexNumber digits < 2 ^ 32

/-- A hexadecimal digit has a number below 16. -/
theorem unhex_lt : ∀ c : Byte, isxdigit c = true → unhex c < 16 := by
  decide

/-- The test of `__bitmap_parse` for four free bits in a chunk. -/
theorem chunk_full_iff (chunk : BitVec 32) :
    chunk.setWidth 64 &&&
        ~~~(((1 : BitVec 64) <<< (chunkSz - 4)) - 1) ≠ 0 ↔
      2 ^ 28 ≤ chunk.toNat := by
  have highest :
      ∀ index < 64,
        (~~~(((1 : BitVec 64) <<< (chunkSz - 4)) - 1)).getLsbD index =
          decide (28 ≤ index) := by
    decide
  have width : (chunk.setWidth 64).toNat = chunk.toNat := by
    have bound := chunk.isLt
    simp only [BitVec.toNat_setWidth]
    omega
  rw [Ne, and_highMask_eq_zero_iff highest, width, not_lt]

/-- Another digit of a chunk. -/
theorem toNat_chunk_digit
    {chunk : BitVec 32}
    {digit : Nat}
    (room : chunk.toNat < 2 ^ 28)
    (bound : digit < 16) :
    ((chunk <<< 4) ||| BitVec.ofNat 32 digit).toNat =
      chunk.toNat * 16 + digit := by
  have shifted : (chunk <<< 4).toNat = 2 ^ 4 * chunk.toNat := by
    rw [BitVec.toNat_shiftLeft, Nat.shiftLeft_eq]
    omega
  have small : (BitVec.ofNat 32 digit).toNat = digit := by
    rw [BitVec.toNat_ofNat]
    omega
  rw [BitVec.toNat_or, shifted, small,
    ← Nat.two_pow_add_eq_or_of_lt (by omega)]
  omega

end Digits

section Input

/-- The text up to the first null character or the end of the buffer. -/
structure Input
    (exhausted : Prop)
    (chars : Region Byte)
    (buf : Int)
    (buflen : Nat)
    (text : List Byte) : Prop where
  stores : chars.Stores buf text
  nonzero : ∀ c ∈ text, c ≠ 0
  ending :
    exhausted ∧ text.length = buflen ∨
      ¬exhausted ∧ text.length < buflen ∧
        chars.cell (buf + text.length) = some 0

variable {exhausted : Prop}
variable {chars : Region Byte}
variable {buf : Int}
variable {buflen : Nat}
variable {c : Byte}
variable {rest : List Byte}

/-- There is a character to read. -/
theorem Input.head
    (input : Input exhausted chars buf buflen (c :: rest)) :
    buflen ≠ 0 ∧ chars.cell buf = some c ∧ c ≠ 0 := by
  obtain ⟨stores, nonzero, ending⟩ := input
  refine ⟨?_, stores.head, nonzero c (by simp)⟩
  rw [List.length_cons] at ending
  omega

/-- The input after a character. -/
theorem Input.tail
    (input : Input exhausted chars buf buflen (c :: rest)) :
    Input exhausted chars (buf + 1) (buflen - 1) rest := by
  obtain ⟨stores, nonzero, ending⟩ := input
  refine ⟨stores.tail, fun c inRest => nonzero c (by simp [inRest]), ?_⟩
  rw [List.length_cons] at ending
  have same :
      buf + ((rest.length + 1 : Nat) : Int) = buf + 1 + rest.length := by
    omega
  rw [same] at ending
  rcases ending with ⟨ended, isLength⟩ | ⟨notEnded, below, isNull⟩
  · exact .inl ⟨ended, by omega⟩
  · exact .inr ⟨notEnded, by omega, isNull⟩

/-- The end of the input. -/
theorem Input.nil
    (input : Input exhausted chars buf buflen []) :
    exhausted ∧ buflen = 0 ∨
      ¬exhausted ∧ buflen ≠ 0 ∧ chars.cell buf = some 0 := by
  rcases input.ending with ⟨ended, isLength⟩ | ⟨notEnded, below, isNull⟩
  · exact .inl ⟨ended, by simpa using isLength.symm⟩
  · refine .inr ⟨notEnded, ?_, by simpa using isNull⟩
    simp only [List.length_nil] at below
    omega

end Input

section Scan

variable {exhausted : Prop}
variable {memory : CMemory}
variable {vars : ChunkVars}
variable {c : Byte}
variable {text rest : List Byte}

/-- Only blanks. -/
def Blank (text : List Byte) : Prop :=
  ∀ c ∈ text, isspace c = true

/-- The variables after a character was read. -/
def ChunkVars.advance (vars : ChunkVars) (c : Byte) : ChunkVars :=
  { vars with buf := vars.buf + 1, buflen := vars.buflen - 1, c := c }

/-- The variables after a digit was read. -/
def ChunkVars.digit (vars : ChunkVars) (c : Byte) : ChunkVars :=
  { vars.advance c with
    chunk := (vars.chunk <<< 4) ||| .ofNat 32 (unhex c)
    ndigits := vars.ndigits + 1
    totaldigits := vars.totaldigits + 1 }

/-- Reading a character that does not end the string. -/
theorem ensures_parseChar_cons
    {post : Except Int ChunkVars → CMemory → Prop}
    (input :
      Input exhausted memory.chars vars.buf vars.buflen (c :: rest)) :
    (loop parseChar vars).Ensures memory post ↔
      if isspace c then
        (loop parseChar (vars.advance c)).Ensures memory post
      else if vars.totaldigits ≠ 0 ∧ isspace vars.c then
        post (.error (-einval)) memory
      else if c = ascii ',' then
        post (.ok (vars.advance c)) memory
      else if ¬isxdigit c then
        post (.error (-einval)) memory
      else if 2 ^ 28 ≤ vars.chunk.toNat then
        post (.error (-eoverflow)) memory
      else
        (loop parseChar (vars.digit c)).Ensures memory post := by
  obtain ⟨present, atBuf, nonzero⟩ := input.head
  have embedded :
      vars.totaldigits ≠ 0 ∧ c ≠ 0 ∧ isspace vars.c = true ↔
        vars.totaldigits ≠ 0 ∧ isspace vars.c = true := by
    tauto
  have ends : c = 0 ∨ c = ascii ',' ↔ c = ascii ',' := by
    tauto
  rw [ensures_loop, parseChar, if_pos present, ensures_bind,
    ensures_loadChar]
  simp only [atBuf, Option.some.injEq, exists_eq_left', embedded, ends,
    chunk_full_iff, ensures_ite, ensures_pure]
  rfl

/-- Reading the end of the string, or nothing from an exhausted buffer. -/
theorem ensures_parseChar_nil
    (input : Input exhausted memory.chars vars.buf vars.buflen []) :
    (loop parseChar vars).Ensures memory fun result after =>
      after = memory ∧
        ∃ read, result = .ok read ∧ read.chunk = vars.chunk ∧
          read.ndigits = vars.ndigits ∧
          read.totaldigits = vars.totaldigits ∧
          (read.buflen = 0 ∨ read.c = 0) := by
  have notBlank : isspace 0 = false := by
    decide
  rw [ensures_loop, parseChar]
  rcases input.nil with ⟨-, atEnd⟩ | ⟨-, present, isNull⟩
  · rw [if_neg (by simpa using atEnd), ensures_pure]
    exact ⟨rfl, vars, rfl, rfl, rfl, rfl, .inl atEnd⟩
  · rw [if_pos present, ensures_bind, ensures_loadChar]
    refine ⟨0, isNull, ?_⟩
    simp only [notBlank, Bool.false_eq_true, ↓reduceIte, ne_eq,
      not_true_eq_false, false_and, and_false, true_or, ensures_pure]
    exact ⟨trivial, vars.advance 0, rfl, rfl, rfl, rfl, .inr rfl⟩

/-- After blanks behind a digit nothing but blanks may follow. -/
theorem ensures_parseChar_blanks
    (input : Input exhausted memory.chars vars.buf vars.buflen text)
    (someDigits : vars.totaldigits ≠ 0)
    (afterBlank : isspace vars.c = true) :
    (loop parseChar vars).Ensures memory fun result after =>
      after = memory ∧
        match result with
        | .error status => status = -einval ∧ ¬Blank text
        | .ok read =>
            Blank text ∧ read.chunk = vars.chunk ∧
              read.ndigits = vars.ndigits ∧
              read.totaldigits = vars.totaldigits ∧
              (read.buflen = 0 ∨ read.c = 0) := by
  induction text generalizing vars with
  | nil =>
      refine (ensures_parseChar_nil input).weaken ?_
      intro result after ended
      obtain ⟨rfl, read, rfl, sameRead⟩ := ended
      exact ⟨rfl, by simp [Blank], sameRead⟩
  | cons c rest inductionHypothesis =>
      rw [ensures_parseChar_cons input]
      split
      · rename_i isBlank
        refine (@inductionHypothesis (vars.advance c) input.tail
          someDigits isBlank).weaken ?_
        intro result after scanned
        obtain ⟨rfl, scanned⟩ := scanned
        refine ⟨rfl, ?_⟩
        cases result with
        | error status =>
            refine ⟨scanned.1, ?_⟩
            simpa [Blank, isBlank] using scanned.2
        | ok read =>
            refine ⟨?_, scanned.2⟩
            simpa [Blank, isBlank] using scanned.1
      · rename_i notBlank
        rw [if_pos ⟨someDigits, afterBlank⟩]
        refine ⟨rfl, rfl, ?_⟩
        intro blank
        exact notBlank (blank c (by simp))

/-- What the loop over the characters finds out about the text. -/
def Scanned
    (exhausted : Prop)
    (chars : Region Byte)
    (text : List Byte) :
    Except Int ChunkVars → Prop
  | .error status =>
      (status = -einval ∨ status = -eoverflow) ∧
        ¬(Chunk (text.takeWhile isxdigit) ∧
          (Blank (text.dropWhile isxdigit) ∨
            (text.dropWhile isxdigit).head? = some (ascii ',')))
  | .ok read =>
      read.ndigits = (text.takeWhile isxdigit).length ∧
        (read.ndigits ≠ 0 →
          Chunk (text.takeWhile isxdigit) ∧
            read.chunk.toNat = hexNumber (text.takeWhile isxdigit) ∧
            read.totaldigits ≠ 0 ∧
            (Blank (text.dropWhile isxdigit) ∧
                (read.buflen = 0 ∨ read.c = 0) ∨
              ∃ rest,
                text.dropWhile isxdigit = ascii ',' :: rest ∧
                  read.c = ascii ',' ∧
                  Input exhausted chars read.buf read.buflen rest))

/-- The loop over the characters of a chunk has read these digits. -/
structure Reading
    (exhausted : Prop)
    (chars : Region Byte)
    (vars : ChunkVars)
    (digits text : List Byte) : Prop where
  input : Input exhausted chars vars.buf vars.buflen text
  hexadecimal : ∀ c ∈ digits, isxdigit c = true
  number : vars.chunk.toNat = hexNumber digits
  count : vars.ndigits = digits.length
  counted : vars.ndigits ≤ vars.totaldigits
  separate :
    vars.totaldigits = 0 ∧ (∀ c ∈ text.head?, isspace c = false) ∨
      vars.totaldigits ≠ 0 ∧ isspace vars.c = false

namespace Reading

variable {chars : Region Byte} {digits : List Byte}

/-- The digits are a chunk, if there are any. -/
theorem chunk
    (reading : Reading exhausted chars vars digits text)
    (present : vars.ndigits ≠ 0) :
    Chunk digits := by
  refine ⟨?_, reading.hexadecimal, reading.number ▸ vars.chunk.isLt⟩
  rintro rfl
  exact present reading.count

/-- The character before is not a blank inside the text. -/
theorem not_embedded
    (reading : Reading exhausted chars vars digits text) :
    ¬(vars.totaldigits ≠ 0 ∧ isspace vars.c = true) := by
  rcases reading.separate with ⟨noDigits, -⟩ | ⟨-, afterDigit⟩
  · simp [noDigits]
  · simp [afterDigit]

/-- What is known of a chunk that ends here. -/
theorem scanned
    (reading : Reading exhausted chars vars digits text)
    (ends : ∀ c ∈ text.head?, isxdigit c = false)
    {read : ChunkVars}
    (sameChunk : read.chunk = vars.chunk)
    (sameCount : read.ndigits = vars.ndigits)
    (sameTotal : read.totaldigits = vars.totaldigits)
    (ending :
      Blank text ∧ (read.buflen = 0 ∨ read.c = 0) ∨
        ∃ rest,
          text = ascii ',' :: rest ∧ read.c = ascii ',' ∧
            Input exhausted chars read.buf read.buflen rest) :
    Scanned exhausted chars (digits ++ text) (.ok read) := by
  obtain ⟨taken, dropped⟩ :=
    takeWhile_append_eq reading.hexadecimal ends
  have counted := reading.counted
  rw [Scanned, taken, dropped, sameCount, sameChunk, sameTotal]
  refine ⟨reading.count, fun present =>
    ⟨reading.chunk present, reading.number, by omega, ending⟩⟩

/-- What is known of a chunk that does not end properly. -/
theorem scanned_error
    (reading : Reading exhausted chars vars digits (c :: rest))
    (notDigit : isxdigit c = false)
    (notBlank : ¬Blank (c :: rest))
    (notComma : c ≠ ascii ',') :
    Scanned exhausted chars (digits ++ c :: rest)
      (.error (-einval)) := by
  have ends : ∀ head ∈ (c :: rest).head?, isxdigit head = false := by
    simpa using notDigit
  obtain ⟨taken, dropped⟩ :=
    takeWhile_append_eq reading.hexadecimal ends
  refine ⟨.inl rfl, ?_⟩
  rw [taken, dropped]
  intro accepted
  rcases accepted.2 with blank | comma
  · exact notBlank blank
  · simp [notComma] at comma

/-- A digit that does not fit. -/
theorem scanned_overflow
    (reading : Reading exhausted chars vars digits (c :: rest))
    (isDigit : isxdigit c = true)
    (full : 2 ^ 28 ≤ vars.chunk.toNat) :
    Scanned exhausted chars (digits ++ c :: rest)
      (.error (-eoverflow)) := by
  refine ⟨.inr rfl, ?_⟩
  intro accepted
  have small := accepted.1.small
  rw [List.takeWhile_append_of_pos reading.hexadecimal,
    List.takeWhile_cons_of_pos isDigit, hexNumber, numeralValue_append,
    ← hexNumber, ← reading.number, List.length_cons, Nat.pow_succ] at small
  have room : 1 ≤ 16 ^ (rest.takeWhile isxdigit).length :=
    Nat.one_le_pow _ _ (by omega)
  have large :
      vars.chunk.toNat * (1 * 16) ≤
        vars.chunk.toNat *
          (16 ^ (rest.takeWhile isxdigit).length * 16) :=
    Nat.mul_le_mul_left _ (Nat.mul_le_mul_right _ room)
  omega

/-- Another digit. -/
theorem digit
    (reading : Reading exhausted chars vars digits (c :: rest))
    (isDigit : isxdigit c = true)
    (room : vars.chunk.toNat < 2 ^ 28) :
    Reading exhausted chars (vars.digit c) (digits ++ [c]) rest where
  input := reading.input.tail
  hexadecimal := by
    simpa [or_imp, forall_and, isDigit] using reading.hexadecimal
  number := by
    rw [hexNumber, numeralValue_append_singleton, ← hexNumber,
      ← reading.number]
    exact toNat_chunk_digit room (unhex_lt c isDigit)
  count := by
    simp [ChunkVars.digit, reading.count]
  counted := by
    simpa [ChunkVars.digit] using reading.counted
  separate :=
    .inr ⟨by simp [ChunkVars.digit], (isxdigit_separate c isDigit).1⟩

end Reading

/-- The loop over the characters of a chunk, after some digits. -/
theorem ensures_parseChar
    {digits : List Byte}
    (reading : Reading exhausted memory.chars vars digits text) :
    (loop parseChar vars).Ensures memory fun result after =>
      after = memory ∧
        Scanned exhausted memory.chars (digits ++ text) result := by
  induction text generalizing vars digits with
  | nil =>
      refine (ensures_parseChar_nil reading.input).weaken ?_
      intro result after ended
      obtain ⟨rfl, read, rfl, sameChunk, sameCount, sameTotal, atEnd⟩ :=
        ended
      exact ⟨rfl, reading.scanned (by simp) sameChunk sameCount sameTotal
        (.inl ⟨by simp [Blank], atEnd⟩)⟩
  | cons c rest inductionHypothesis =>
      rw [ensures_parseChar_cons reading.input]
      by_cases isBlank : isspace c = true
      · rw [if_pos isBlank]
        have someDigits : vars.totaldigits ≠ 0 := by
          rcases reading.separate with ⟨-, notBlank⟩ | ⟨someDigits, -⟩
          · simp [isBlank] at notBlank
          · exact someDigits
        obtain ⟨notDigit, notComma, -⟩ := isspace_separate c isBlank
        have blanks :
            (loop parseChar (vars.advance c)).Ensures memory _ :=
          ensures_parseChar_blanks reading.input.tail someDigits isBlank
        refine blanks.weaken ?_
        intro result after scanned
        obtain ⟨rfl, scanned⟩ := scanned
        refine ⟨rfl, ?_⟩
        cases result with
        | error status =>
            obtain ⟨rfl, notBlank⟩ := scanned
            refine reading.scanned_error notDigit ?_ notComma
            simpa [Blank, isBlank] using notBlank
        | ok read =>
            obtain ⟨blank, sameChunk, sameCount, sameTotal, atEnd⟩ :=
              scanned
            refine reading.scanned (by simpa using notDigit) sameChunk
              sameCount sameTotal (.inl ⟨?_, atEnd⟩)
            simpa [Blank, isBlank] using blank
      · rw [if_neg isBlank, if_neg reading.not_embedded]
        by_cases isComma : c = ascii ','
        · subst isComma
          rw [if_pos rfl]
          exact ⟨rfl, reading.scanned (by simp) rfl rfl rfl
            (.inr ⟨rest, rfl, rfl, reading.input.tail⟩)⟩
        · rw [if_neg isComma]
          by_cases isDigit : isxdigit c = true
          · rw [if_neg (by simpa using isDigit)]
            by_cases full : 2 ^ 28 ≤ vars.chunk.toNat
            · rw [if_pos full]
              exact ⟨rfl, reading.scanned_overflow isDigit full⟩
            · rw [if_neg full]
              have following :=
                inductionHypothesis
                  (reading.digit isDigit (not_le.mp full))
              simpa using following
          · rw [if_pos (by simpa using isDigit)]
            refine ⟨rfl, reading.scanned_error (by simpa using isDigit) ?_
              isComma⟩
            intro blank
            exact isBlank (blank c (by simp))

end Scan

section Language

/--
Chunks that are separated by commas and followed by blanks.  A comma may end
the text if this is allowed.
-/
inductive Chunks
    (comma : Prop) : List Byte → List (List Byte) → Prop where
  | last
      {digits blanks : List Byte} :
      Chunk digits →
      Blank blanks →
      Chunks comma (digits ++ blanks) [digits]
  | trailing
      {digits : List Byte} :
      comma →
      Chunk digits →
      Chunks comma (digits ++ [ascii ',']) [digits]
  | more
      {digits rest : List Byte}
      {chunks : List (List Byte)} :
      Chunk digits →
      Chunks comma rest chunks →
      Chunks comma (digits ++ ascii ',' :: rest) (digits :: chunks)

variable {comma : Prop}
variable {text : List Byte}
variable {chunks : List (List Byte)}

/-- Neither a blank nor a comma is a digit. -/
private theorem Blank.head_not_digit
    (blank : Blank text) :
    ∀ c ∈ text.head?, isxdigit c = false :=
  fun c isHead =>
    (isspace_separate c (blank c (List.mem_of_mem_head? isHead))).1

private theorem comma_not_digit
    (rest : List Byte) :
    ∀ c ∈ (ascii ',' :: rest).head?, isxdigit c = false := by
  simp

theorem not_blank_comma (rest : List Byte) :
    ¬Blank (ascii ',' :: rest) := by
  intro blank
  have isBlank := blank (ascii ',') (by simp)
  simp at isBlank

/-- The chunks of a text are determined from left to right. -/
theorem chunks_iff :
    Chunks comma text chunks ↔
      Chunk (text.takeWhile isxdigit) ∧
        (Blank (text.dropWhile isxdigit) ∧
            chunks = [text.takeWhile isxdigit] ∨
          comma ∧ text.dropWhile isxdigit = [ascii ','] ∧
            chunks = [text.takeWhile isxdigit] ∨
          ∃ rest others,
            text.dropWhile isxdigit = ascii ',' :: rest ∧
              Chunks comma rest others ∧
              chunks = text.takeWhile isxdigit :: others) := by
  constructor
  · intro isChunks
    cases isChunks with
    | last chunk blank =>
        obtain ⟨taken, dropped⟩ :=
          takeWhile_append_eq chunk.hexadecimal blank.head_not_digit
        rw [taken, dropped]
        exact ⟨chunk, .inl ⟨blank, rfl⟩⟩
    | trailing allowed chunk =>
        obtain ⟨taken, dropped⟩ :=
          takeWhile_append_eq chunk.hexadecimal (comma_not_digit [])
        rw [taken, dropped]
        exact ⟨chunk, .inr (.inl ⟨allowed, rfl, rfl⟩)⟩
    | @more _ rest _ chunk others =>
        obtain ⟨taken, dropped⟩ :=
          takeWhile_append_eq chunk.hexadecimal (comma_not_digit rest)
        rw [taken, dropped]
        exact ⟨chunk, .inr (.inr ⟨_, _, rfl, others, rfl⟩)⟩
  · intro parts
    obtain ⟨chunk, parts⟩ := parts
    have whole := List.takeWhile_append_dropWhile (p := isxdigit) (l := text)
    rcases parts with ⟨blank, rfl⟩ | ⟨allowed, isComma, rfl⟩ |
      ⟨rest, others, isComma, isChunks, rfl⟩
    · have last : Chunks comma _ _ := .last chunk blank
      rwa [whole] at last
    · have last : Chunks comma _ _ := .trailing allowed chunk
      rwa [← isComma, whole] at last
    · have more : Chunks comma _ _ := .more chunk isChunks
      rwa [← isComma, whole] at more

/-- There is no empty list of chunks. -/
theorem not_chunks_nil : ¬Chunks comma [] chunks := by
  intro isChunks
  exact (chunks_iff.mp isChunks).1.nonempty rfl

/-- A text has one list of chunks at most. -/
theorem Chunks.unique
    {others : List (List Byte)}
    (one : Chunks comma text chunks)
    (other : Chunks comma text others) :
    chunks = others := by
  induction one generalizing others with
  | last chunk blank =>
      obtain ⟨taken, dropped⟩ :=
        takeWhile_append_eq chunk.hexadecimal blank.head_not_digit
      rw [chunks_iff, taken, dropped] at other
      rcases other with ⟨-, ⟨-, rfl⟩ | ⟨-, -, rfl⟩ |
        ⟨rest, -, rfl, -, -⟩⟩
      · rfl
      · rfl
      · exact absurd blank (not_blank_comma rest)
  | trailing allowed chunk =>
      obtain ⟨taken, dropped⟩ :=
        takeWhile_append_eq chunk.hexadecimal (comma_not_digit [])
      rw [chunks_iff, taken, dropped] at other
      rcases other with ⟨-, ⟨blank, rfl⟩ | ⟨-, -, rfl⟩ |
        ⟨rest, more, isRest, isChunks, -⟩⟩
      · rfl
      · rfl
      · obtain rfl : [] = rest := (List.cons.inj isRest).2
        exact absurd isChunks not_chunks_nil
  | @more _ rest _ chunk isChunks inductionHypothesis =>
      obtain ⟨taken, dropped⟩ :=
        takeWhile_append_eq chunk.hexadecimal (comma_not_digit rest)
      rw [chunks_iff, taken, dropped] at other
      rcases other with ⟨-, ⟨blank, -⟩ | ⟨-, isRest, -⟩ |
        ⟨otherRest, more, isRest, otherChunks, rfl⟩⟩
      · exact absurd blank (not_blank_comma rest)
      · obtain rfl : rest = [] := (List.cons.inj isRest).2
        exact absurd isChunks not_chunks_nil
      · obtain rfl : rest = otherRest := (List.cons.inj isRest).2
        rw [inductionHypothesis otherChunks]

end Language

section Value

/-- The number of a list of chunks of 32 bits. -/
def chunksValue : List (List Byte) → Nat
  | [] => 0
  | digits :: rest =>
      hexNumber digits * 2 ^ (32 * rest.length) + chunksValue rest

/-- The number of significant bits after another chunk. -/
def nextCount (count number : Nat) : Nat :=
  if count = 0 then Nat.size number else count + 32

/-- The counter `nbits` of type `int` never exceeds `nmaskbits`. -/
def CountFits (nmaskbits : Nat) : Nat → List (List Byte) → Prop
  | _, [] => True
  | count, digits :: rest =>
      (BitVec.ofNat 32 (nextCount count (hexNumber digits))).toInt ≤
          nmaskbits ∧
        CountFits nmaskbits (nextCount count (hexNumber digits)) rest

/-- A number of at most 32 bits below another number. -/
theorem size_append_chunk
    {value number : Nat}
    (small : number < 2 ^ 32) :
    Nat.size (value * 2 ^ 32 + number) =
      nextCount (Nat.size value) number := by
  unfold nextCount
  split
  · rename_i isZero
    obtain rfl : value = 0 := Nat.size_eq_zero.mp isZero
    simp
  · rename_i nonzero
    apply le_antisymm
    · rw [Nat.size_le, Nat.pow_add]
      have below := Nat.lt_size_self value
      calc
        value * 2 ^ 32 + number < (value + 1) * 2 ^ 32 := by
          omega
        _ ≤ 2 ^ Nat.size value * 2 ^ 32 :=
          Nat.mul_le_mul_right _ below
    · obtain ⟨size, isSize⟩ := Nat.exists_eq_succ_of_ne_zero nonzero
      have above : 2 ^ size ≤ value := by
        rw [← Nat.lt_size, isSize]
        exact Nat.lt_succ_self size
      have reached : 2 ^ (size + 32) ≤ value * 2 ^ 32 + number := by
        rw [Nat.pow_add]
        exact (Nat.mul_le_mul_right _ above).trans (Nat.le_add_right _ _)
      have large := Nat.lt_size.mpr reached
      omega

/--
A number passes the check of the counter `nbits`, either since it fits into the
bitmap or since the counter is negative before it exceeds `nmaskbits`.
-/
def Passes (nmaskbits value : Nat) : Prop :=
  value < 2 ^ nmaskbits ∨
    2 ^ 31 - 32 + Nat.size value % 32 ≤ nmaskbits

/-- The number with another chunk, as part of the whole number. -/
theorem append_chunksValue
    (value : Nat)
    (digits : List Byte)
    (rest : List (List Byte)) :
    value * 2 ^ (32 * (digits :: rest).length) +
        chunksValue (digits :: rest) =
      (value * 2 ^ 32 + hexNumber digits) * 2 ^ (32 * rest.length) +
        chunksValue rest := by
  rw [chunksValue, List.length_cons, Nat.mul_add, Nat.pow_add]
  ring

/-- Every further chunk adds 32 significant bits. -/
theorem size_append_chunks
    {value : Nat}
    {chunks : List (List Byte)}
    (isChunk : ∀ digits ∈ chunks, Chunk digits)
    (nonzero : value ≠ 0) :
    Nat.size (value * 2 ^ (32 * chunks.length) + chunksValue chunks) =
      Nat.size value + 32 * chunks.length := by
  induction chunks generalizing value with
  | nil =>
      simp [chunksValue]
  | cons digits rest inductionHypothesis =>
      rw [List.forall_mem_cons] at isChunk
      have stillNonzero : value * 2 ^ 32 + hexNumber digits ≠ 0 := by
        omega
      rw [append_chunksValue, inductionHypothesis isChunk.2 stillNonzero,
        size_append_chunk isChunk.1.small, nextCount,
        if_neg (Nat.size_eq_zero.not.mpr nonzero), List.length_cons]
      omega

/-- The check of the counter after another chunk. -/
theorem count_le_iff_passes
    {nmaskbits value number : Nat}
    (bound : nmaskbits < 2 ^ 31)
    (small : number < 2 ^ 32)
    (passes : Passes nmaskbits value) :
    (BitVec.ofNat 32 (nextCount (Nat.size value) number)).toInt ≤
        nmaskbits ↔
      Passes nmaskbits (value * 2 ^ 32 + number) := by
  have ofSize : Nat.size number ≤ 32 := Nat.size_le.mpr small
  rw [Passes, ← Nat.size_le] at passes ⊢
  rw [size_append_chunk small, BitVec.toInt_eq_toNat_cond,
    BitVec.toNat_ofNat]
  unfold nextCount
  split_ifs <;> omega

/-- The counter never exceeds `nmaskbits` if the number passes. -/
theorem countFits_iff_passes
    {nmaskbits value : Nat}
    {chunks : List (List Byte)}
    (bound : nmaskbits < 2 ^ 31)
    (isChunk : ∀ digits ∈ chunks, Chunk digits)
    (passes : Passes nmaskbits value) :
    CountFits nmaskbits (Nat.size value) chunks ↔
      Passes nmaskbits
        (value * 2 ^ (32 * chunks.length) + chunksValue chunks) := by
  induction chunks generalizing value with
  | nil =>
      simpa [CountFits, chunksValue] using passes
  | cons digits rest inductionHypothesis =>
      rw [List.forall_mem_cons] at isChunk
      rw [append_chunksValue, CountFits,
        count_le_iff_passes bound isChunk.1.small passes,
        ← size_append_chunk isChunk.1.small]
      by_cases stillPasses :
          Passes nmaskbits (value * 2 ^ 32 + hexNumber digits)
      · rw [inductionHypothesis isChunk.2 stillPasses]
        exact and_iff_right stillPasses
      · have nonzero : value * 2 ^ 32 + hexNumber digits ≠ 0 := by
          intro isZero
          rw [isZero] at stillPasses
          exact stillPasses (.inl (Nat.two_pow_pos _))
        have size := size_append_chunks isChunk.2 nonzero
        refine iff_of_false (fun both => stillPasses both.1) ?_
        rw [Passes, ← Nat.size_le] at stillPasses ⊢
        rw [size]
        omega

end Value

section Chunks

variable {exhausted : Prop}
variable {memory : CMemory}
variable {maskp : Int}
variable {nmaskbits count value : Nat}
variable {vars : ParseVars}
variable {text : List Byte}

/-- The bitmap is the binary representation of a number, if it fits. -/
def Represented
    (maskp : Int)
    (nmaskbits value : Nat)
    (memory : CMemory) : Prop :=
  value < 2 ^ nmaskbits →
    ∀ index < bitsToLongs nmaskbits * 64,
      memory.longs.bit maskp index = value.testBit index

/-- What the loop over the chunks maintains. -/
structure Parsing
    (maskp : Int)
    (nmaskbits count value : Nat)
    (vars : ParseVars)
    (memory : CMemory) : Prop where
  mapped : memory.longs.Mapped maskp (bitsToLongs nmaskbits)
  represented : Represented maskp nmaskbits value memory
  nbits : vars.nbits = .ofNat 32 count
  started : vars.nchunks = 0 ↔ count = 0
  empty : count = 0 → value = 0

/-- The result of `__bitmap_parse` on a text after other chunks. -/
def Verdict
    (exhausted : Prop)
    (maskp : Int)
    (nmaskbits count value : Nat)
    (text : List Byte)
    (status : Int)
    (after : CMemory) : Prop :=
  (status = 0 ∧
      ∃ chunks,
        Chunks exhausted text chunks ∧
          CountFits nmaskbits count chunks ∧
          Represented maskp nmaskbits
            (value * 2 ^ (32 * chunks.length) + chunksValue chunks)
            after) ∨
    (status = -einval ∨ status = -eoverflow) ∧
      ∀ chunks,
        Chunks exhausted text chunks →
        ¬CountFits nmaskbits count chunks

/-- The bits after another chunk. -/
theorem testBit_append_chunk
    {number : Nat}
    (small : number < 2 ^ 32)
    (index : Nat) :
    (value * 2 ^ 32 + number).testBit index =
      if index < 32 then number.testBit index
      else value.testBit (index - 32) := by
  rw [Nat.mul_comm, Nat.testBit_two_pow_mul_add _ small]

/-- Shifting the bitmap and inserting another chunk. -/
theorem ensures_insertChunk
    (chunk : BitVec 32)
    (positive : 1 ≤ nmaskbits)
    (mapped : memory.longs.Mapped maskp (bitsToLongs nmaskbits))
    (represented : Represented maskp nmaskbits value memory) :
    (do
      bitmapShiftLeft maskp maskp chunkSz nmaskbits
      let word ← loadLong maskp
      storeLong maskp (word ||| chunk.setWidth 64)).Ensures memory
        fun _ after =>
          after.chars = memory.chars ∧
            after.longs.Mapped maskp (bitsToLongs nmaskbits) ∧
            Represented maskp nmaskbits
              (value * 2 ^ 32 + chunk.toNat) after := by
  have someWord : 0 < bitsToLongs nmaskbits := by
    simp only [bitsToLongs]
    omega
  rw [ensures_bind]
  refine (ensures_bitmapShiftLeft mapped mapped (.inl rfl)
    (by simp [chunkSz])).weaken ?_
  intro _ shifted shiftResult
  obtain ⟨sameChars, stillMapped, -, isShifted⟩ := shiftResult
  obtain ⟨word, atWord⟩ := stillMapped 0 someWord
  have noOffset : maskp + ((0 : Nat) : Int) = maskp := by
    simp
  rw [noOffset] at atWord
  simp only [ensures_bind, ensures_loadLong, ensures_storeLong, atWord,
    Option.some.injEq, exists_eq_left', exists_eq', true_and]
  refine ⟨sameChars, stillMapped.write _ _, ?_⟩
  intro fits index bound
  have valueFits : value < 2 ^ nmaskbits := by
    omega
  have highBit
      (high : 32 ≤ index) :
      shifted.longs.bit maskp index = value.testBit (index - 32) := by
    rw [isShifted index bound, shiftedLeft,
      represented valueFits _ (by omega)]
    by_cases used : index < nmaskbits
    · simp [chunkSz, high, used]
    · have clear :
          (value * 2 ^ 32 + chunk.toNat).testBit index = false :=
        Nat.testBit_lt_two_pow
          (fits.trans_le (Nat.pow_le_pow_right (by omega) (by omega)))
      rw [testBit_append_chunk chunk.isLt, if_neg (by omega)] at clear
      simp [used, clear]
  have lowBit
      (low : index < 32) :
      shifted.longs.bit maskp index = false := by
    rw [isShifted index bound, shiftedLeft,
      decide_eq_false (by simp only [chunkSz]; omega), Bool.false_and]
  have written :
      (shifted.longs.write (maskp + ((0 : Nat) : Int))
          (word ||| chunk.setWidth 64)).bit maskp index = _ :=
    Region.bit_write 0 index _
  rw [noOffset] at written
  rw [written, testBit_append_chunk chunk.isLt]
  by_cases inFirst : index / 64 = 0
  · have position : index % 64 = index := by
      omega
    have wordBit : word.getLsbD index = shifted.longs.bit maskp index := by
      rw [Region.bit_of_cell (by rwa [noOffset]) inFirst, position]
    rw [if_pos inFirst, position, BitVec.getLsbD_or, wordBit,
      BitVec.getLsbD_setWidth, decide_eq_true (by omega), Bool.true_and]
    split
    · rename_i low
      rw [lowBit low, Bool.false_or]
      rfl
    · rename_i high
      rw [highBit (by omega), BitVec.getLsbD_of_ge _ _ (by omega),
        Bool.or_false]
  · rw [if_neg inFirst, if_neg (by omega), highBit (by omega)]

/-- What one round of the loop over the chunks leads to. -/
def ChunkStep
    (exhausted : Prop)
    (maskp : Int)
    (nmaskbits count value : Nat)
    (text : List Byte)
    (flow : Flow ParseVars Int)
    (after : CMemory) : Prop :=
  match flow with
  | .done status =>
      Verdict exhausted maskp nmaskbits count value text status after
  | .next vars =>
      ∃ rest,
        text.dropWhile isxdigit = ascii ',' :: rest ∧
          Chunk (text.takeWhile isxdigit) ∧
          (BitVec.ofNat 32 (nextCount count
            (hexNumber (text.takeWhile isxdigit)))).toInt ≤ nmaskbits ∧
          Parsing maskp nmaskbits
            (nextCount count (hexNumber (text.takeWhile isxdigit)))
            (value * 2 ^ 32 + hexNumber (text.takeWhile isxdigit))
            vars after ∧
          Input exhausted after.chars vars.buf vars.buflen rest ∧
          vars.buflen ≠ 0 ∧ vars.totaldigits ≠ 0 ∧ vars.c = ascii ','

/-- The end of a round of the loop over the chunks. -/
private theorem ensures_parseMore
    (chunk : Chunk (text.takeWhile isxdigit))
    (fits :
      (BitVec.ofNat 32 (nextCount count
        (hexNumber (text.takeWhile isxdigit)))).toInt ≤ nmaskbits)
    (parsing :
      Parsing maskp nmaskbits
        (nextCount count (hexNumber (text.takeWhile isxdigit)))
        (value * 2 ^ 32 + hexNumber (text.takeWhile isxdigit))
        vars memory)
    (someDigits : vars.totaldigits ≠ 0)
    (ending :
      Blank (text.dropWhile isxdigit) ∧
          (vars.buflen = 0 ∨ vars.c = 0) ∨
        ∃ rest,
          text.dropWhile isxdigit = ascii ',' :: rest ∧
            vars.c = ascii ',' ∧
            Input exhausted memory.chars vars.buf vars.buflen rest) :
    (parseMore vars).Ensures memory
      (ChunkStep exhausted maskp nmaskbits count value text) := by
  have accepted
      (isChunks :
        Chunks exhausted text [text.takeWhile isxdigit]) :
      ChunkStep exhausted maskp nmaskbits count value text (.done 0)
        memory := by
    refine .inl ⟨rfl, _, isChunks, ⟨fits, trivial⟩, ?_⟩
    simpa [chunksValue] using parsing.represented
  unfold parseMore
  rcases ending with ⟨blank, atEnd⟩ | ⟨rest, isComma, afterComma, input⟩
  · rw [if_neg ?_, ensures_pure]
    · exact accepted (chunks_iff.mpr ⟨chunk, .inl ⟨blank, rfl⟩⟩)
    · rintro ⟨present, afterComma⟩
      rcases atEnd with isZero | isNull
      · exact present isZero
      · rw [isNull] at afterComma
        exact absurd afterComma (by decide)
  · by_cases atEnd : vars.buflen = 0
    · have ended : exhausted ∧ rest = [] := by
        rcases input.ending with ⟨isExhausted, isLength⟩ | ⟨-, below, -⟩
        · exact ⟨isExhausted,
            List.length_eq_zero_iff.mp (isLength.trans atEnd)⟩
        · omega
      obtain ⟨isExhausted, rfl⟩ := ended
      rw [if_neg (by simp [atEnd]), ensures_pure]
      exact accepted (chunks_iff.mpr
        ⟨chunk, .inr (.inl ⟨isExhausted, isComma, rfl⟩)⟩)
    · rw [if_pos ⟨atEnd, afterComma⟩, ensures_pure]
      exact ⟨rest, isComma, chunk, fits, parsing, input, atEnd,
        someDigits, afterComma⟩

/-- A text that does not start with a proper chunk. -/
private theorem verdict_of_not_chunk
    {status : Int}
    (isError : status = -einval ∨ status = -eoverflow)
    (notChunk :
      ¬(Chunk (text.takeWhile isxdigit) ∧
        (Blank (text.dropWhile isxdigit) ∨
          (text.dropWhile isxdigit).head? = some (ascii ',')))) :
    Verdict exhausted maskp nmaskbits count value text status memory := by
  refine .inr ⟨isError, ?_⟩
  intro chunks isChunks
  obtain ⟨chunk, ⟨blank, -⟩ | ⟨-, isComma, -⟩ | ⟨_, _, isComma, -, -⟩⟩ :=
    chunks_iff.mp isChunks
  · exact absurd ⟨chunk, .inl blank⟩ notChunk
  · exact absurd ⟨chunk, .inr (by rw [isComma]; rfl)⟩ notChunk
  · exact absurd ⟨chunk, .inr (by rw [isComma]; rfl)⟩ notChunk

/-- A chunk that makes the counter exceed the number of bits. -/
private theorem verdict_of_count
    (exceeds :
      ¬(BitVec.ofNat 32 (nextCount count
        (hexNumber (text.takeWhile isxdigit)))).toInt ≤ nmaskbits) :
    Verdict exhausted maskp nmaskbits count value text (-eoverflow)
      memory := by
  refine .inr ⟨.inr rfl, ?_⟩
  intro chunks isChunks countFits
  obtain ⟨-, ⟨-, rfl⟩ | ⟨-, -, rfl⟩ | ⟨_, _, -, -, rfl⟩⟩ :=
    chunks_iff.mp isChunks
  · exact exceeds countFits.1
  · exact exceeds countFits.1
  · exact exceeds countFits.1

/-- The counter after another chunk. -/
private theorem Parsing.nextCount_eq
    (parsing : Parsing maskp nmaskbits count value vars memory)
    {chunk : BitVec 32}
    (significant : ¬(vars.nchunks = 0 ∧ chunk = 0)) :
    vars.nbits +
          .ofNat 32
            (if vars.nchunks + 1 = 1 then fls chunk else chunkSz) =
        .ofNat 32 (nextCount count chunk.toNat) ∧
      nextCount count chunk.toNat ≠ 0 := by
  have started := parsing.started
  rw [parsing.nbits, nextCount]
  by_cases first : count = 0
  · have noChunks := started.mpr first
    have nonzero : chunk.toNat ≠ 0 := by
      intro isZero
      exact significant ⟨noChunks, BitVec.eq_of_toNat_eq isZero⟩
    simp only [noChunks, first, Nat.zero_add, ↓reduceIte, fls_eq_size]
    exact ⟨by simp, Nat.size_eq_zero.not.mpr nonzero⟩
  · have someChunks : vars.nchunks + 1 ≠ 1 := by
      omega
    simp only [someChunks, first, ↓reduceIte, chunkSz]
    exact ⟨(BitVec.ofNat_add _ _).symm, by omega⟩

/-- One round of the loop over the chunks. -/
theorem ensures_parseChunk
    (positive : 1 ≤ nmaskbits)
    (parsing : Parsing maskp nmaskbits count value vars memory)
    (scans :
      (loop parseChar
        ⟨vars.buf, vars.buflen, vars.c, 0, 0,
          vars.totaldigits⟩).Ensures memory fun result after =>
            after = memory ∧
              Scanned exhausted memory.chars text result) :
    (parseChunk maskp nmaskbits vars).Ensures memory
      (ChunkStep exhausted maskp nmaskbits count value text) := by
  rw [parseChunk, ensures_bind]
  refine scans.weaken ?_
  intro result after scanned
  obtain ⟨rfl, scanned⟩ := scanned
  cases result with
  | error status =>
      rw [ensures_pure]
      exact verdict_of_not_chunk scanned.1 scanned.2
  | ok read =>
      obtain ⟨isCount, present⟩ := scanned
      dsimp only
      by_cases noDigits : read.ndigits = 0
      · rw [if_pos noDigits, ensures_pure]
        refine verdict_of_not_chunk (.inl rfl) ?_
        rintro ⟨chunk, -⟩
        exact chunk.nonempty
          (List.length_eq_zero_iff.mp (isCount.symm.trans noDigits))
      · obtain ⟨chunk, isNumber, someDigits, ending⟩ := present noDigits
        rw [if_neg noDigits]
        by_cases skipped : vars.nchunks = 0 ∧ read.chunk = 0
        · have isZero : hexNumber (text.takeWhile isxdigit) = 0 := by
            rw [← isNumber, skipped.2]
            rfl
          have noCount : count = 0 := parsing.started.mp skipped.1
          have noValue : value = 0 := parsing.empty noCount
          subst noCount noValue
          rw [if_pos skipped]
          refine ensures_parseMore chunk ?_ ?_ someDigits ending
          · simp [isZero, nextCount]
          · rw [isZero]
            exact
              { mapped := parsing.mapped
                represented := parsing.represented
                nbits := by simpa [nextCount] using parsing.nbits
                started := by simpa [nextCount] using parsing.started
                empty := by simp }
        · obtain ⟨isNext, nonzero⟩ := parsing.nextCount_eq skipped
          rw [isNumber] at isNext nonzero
          have inserted :=
            ensures_insertChunk read.chunk positive parsing.mapped
              parsing.represented
          rw [if_neg skipped, isNext]
          simp only [ensures_bind] at inserted ⊢
          refine inserted.weaken fun _ _ shifted =>
            shifted.weaken fun _ _ loaded => loaded.weaken ?_
          intro _ final stored
          obtain ⟨sameChars, mapped, represented⟩ := stored
          rw [isNumber] at represented
          by_cases fits :
              (BitVec.ofNat 32 (nextCount count
                (hexNumber (text.takeWhile isxdigit)))).toInt ≤ nmaskbits
          · rw [if_neg (by simpa using fits)]
            refine ensures_parseMore chunk fits ?_ someDigits ?_
            · exact
                { mapped := mapped
                  represented := represented
                  nbits := rfl
                  started := by simpa using nonzero
                  empty := fun isZero => absurd isZero nonzero }
            · rw [sameChars]
              exact ending
          · rw [if_pos (by simpa using fits), ensures_pure]
            exact verdict_of_count fits

/-- The verdict on a text from the verdict on the text after a comma. -/
private theorem Verdict.more
    {rest : List Byte}
    {status : Int}
    (isComma : text.dropWhile isxdigit = ascii ',' :: rest)
    (chunk : Chunk (text.takeWhile isxdigit))
    (fits :
      (BitVec.ofNat 32 (nextCount count
        (hexNumber (text.takeWhile isxdigit)))).toInt ≤ nmaskbits)
    (notLast : ¬(exhausted ∧ rest = []))
    (verdict :
      Verdict exhausted maskp nmaskbits
        (nextCount count (hexNumber (text.takeWhile isxdigit)))
        (value * 2 ^ 32 + hexNumber (text.takeWhile isxdigit))
        rest status memory) :
    Verdict exhausted maskp nmaskbits count value text status memory := by
  rcases verdict with ⟨accepted, chunks, isChunks, countFits, represented⟩ |
    ⟨isError, none⟩
  · refine .inl ⟨accepted, _,
      chunks_iff.mpr ⟨chunk, .inr (.inr ⟨_, _, isComma, isChunks, rfl⟩)⟩,
      ⟨fits, countFits⟩, ?_⟩
    rwa [append_chunksValue]
  · refine .inr ⟨isError, ?_⟩
    intro chunks isChunks countFits
    obtain ⟨-, ⟨blank, -⟩ | ⟨allowed, isLast, -⟩ |
      ⟨others, more, isMore, otherChunks, rfl⟩⟩ := chunks_iff.mp isChunks
    · rw [isComma] at blank
      exact not_blank_comma rest blank
    · rw [isComma] at isLast
      exact notLast ⟨allowed, (List.cons.inj isLast).2⟩
    · rw [isComma] at isMore
      obtain rfl : rest = others := (List.cons.inj isMore).2
      exact none more otherChunks countFits.2

/-- The loop over the chunks decides whether the text is accepted. -/
theorem ensures_parseChunks
    (positive : 1 ≤ nmaskbits)
    (parsing : Parsing maskp nmaskbits count value vars memory)
    (scans :
      (loop parseChar
        ⟨vars.buf, vars.buflen, vars.c, 0, 0,
          vars.totaldigits⟩).Ensures memory fun result after =>
            after = memory ∧
              Scanned exhausted memory.chars text result) :
    (loop (parseChunk maskp nmaskbits) vars).Ensures memory
      (Verdict exhausted maskp nmaskbits count value text) := by
  induction size : text.length using Nat.strong_induction_on
    generalizing text vars memory count value with
  | h size inductionHypothesis =>
      subst size
      rw [ensures_loop]
      refine (ensures_parseChunk positive parsing scans).weaken ?_
      intro flow after step
      cases flow with
      | done status =>
          exact step
      | next vars =>
          obtain ⟨rest, isComma, chunk, fits, parsing, input, present,
            someDigits, afterComma⟩ := step
          have shorter : rest.length < text.length := by
            have whole :=
              List.takeWhile_append_dropWhile (p := isxdigit) (l := text)
            rw [isComma] at whole
            have length := congrArg List.length whole
            simp only [List.length_append, List.length_cons] at length
            omega
          have notLast : ¬(exhausted ∧ rest = []) := by
            rintro ⟨isExhausted, rfl⟩
            rcases input.nil with ⟨-, atEnd⟩ | ⟨notExhausted, -, -⟩
            · exact present atEnd
            · exact notExhausted isExhausted
          have reading :
              Reading exhausted after.chars
                ⟨vars.buf, vars.buflen, vars.c, 0, 0, vars.totaldigits⟩
                [] rest :=
            { input := input
              hexadecimal := by simp
              number := rfl
              count := rfl
              counted := by simp
              separate := .inr ⟨someDigits, by simp [afterComma]⟩ }
          refine (inductionHypothesis _ shorter parsing
            (ensures_parseChar reading) rfl).weaken ?_
          intro status final verdict
          exact verdict.more isComma chunk fits notLast

end Chunks

section Parse

variable {exhausted : Prop}
variable {memory : CMemory}
variable {maskp buf : Int}
variable {nmaskbits buflen : Nat}

/-- Blanks before the first digit are skipped. -/
theorem ensures_parseChar_leading
    {vars : ChunkVars}
    {blanks text : List Byte}
    {post : Except Int ChunkVars → CMemory → Prop}
    (blank : Blank blanks)
    (input :
      Input exhausted memory.chars vars.buf vars.buflen
        (blanks ++ text))
    (holds :
      ∀ later : ChunkVars,
        Input exhausted memory.chars later.buf later.buflen text →
        later.chunk = vars.chunk →
        later.ndigits = vars.ndigits →
        later.totaldigits = vars.totaldigits →
        (loop parseChar later).Ensures memory post) :
    (loop parseChar vars).Ensures memory post := by
  induction blanks generalizing vars with
  | nil =>
      exact holds vars input rfl rfl rfl
  | cons c rest inductionHypothesis =>
      rw [List.cons_append] at input
      rw [ensures_parseChar_cons input, if_pos (blank c (by simp))]
      refine @inductionHypothesis (vars.advance c)
        (fun c' inRest => blank c' (by simp [inRest])) input.tail ?_
      intro later laterInput sameChunk sameCount sameTotal
      exact holds later laterInput sameChunk sameCount sameTotal

/-- `__bitmap_parse` accepts chunks whose counter fits. -/
theorem ensures_bitmapParse
    {blanks text : List Byte}
    (positive : 1 ≤ nmaskbits)
    (mapped : memory.longs.Mapped maskp (bitsToLongs nmaskbits))
    (input : Input exhausted memory.chars buf buflen (blanks ++ text))
    (blank : Blank blanks)
    (starts : ∀ c ∈ text.head?, isspace c = false) :
    (bitmapParse maskp nmaskbits buf buflen).Ensures memory
      (Verdict exhausted maskp nmaskbits 0 0 text) := by
  rw [bitmapParse, ensures_bind]
  refine (ensures_bitmapZero mapped).weaken ?_
  intro _ cleared zeroed
  obtain ⟨sameChars, stillMapped, -, isZero⟩ := zeroed
  rw [← sameChars] at input
  refine ensures_parseChunks positive ?_ ?_
  · exact
      { mapped := stillMapped
        represented := by
          intro _ index bound
          rw [isZero index bound, Nat.zero_testBit]
        nbits := rfl
        started := by simp
        empty := by simp }
  · refine ensures_parseChar_leading blank input ?_
    intro later laterInput sameChunk sameCount sameTotal
    have reading :
        Reading exhausted cleared.chars later [] text :=
      { input := laterInput
        hexadecimal := by simp
        number := by simp [sameChunk, hexNumber]
        count := by simp [sameCount]
        counted := by simp [sameCount]
        separate := .inl ⟨by simp [sameTotal], starts⟩ }
    exact ensures_parseChar reading

end Parse

end LibKern.Bitmap
