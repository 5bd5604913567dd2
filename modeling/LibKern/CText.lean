import Mathlib.Data.List.Induction
import Mathlib.Data.Nat.Digits.Lemmas

namespace LibKern

/-!
# Characters and numerals of C

Text is a list of bytes.  The character classes are those of the C locale; a
byte above 127 is in none of them.  A numeral is a list of digits with the
most significant one first, as `printf` writes and `strtoul` reads it.
-/

/-- An object of type `char`. -/
abbrev Byte := BitVec 8

/-- The byte of an ASCII character. -/
def ascii (character : Char) : Byte :=
  .ofNat 8 character.toNat

/-- `isspace(c)`: blank, tab, newline, vertical tab, form feed, return. -/
def isspace (c : Byte) : Bool :=
  c = ascii ' ' || (9 ≤ c && c ≤ 13)

/-- `isdigit(c)`. -/
def isdigit (c : Byte) : Bool :=
  ascii '0' ≤ c && c ≤ ascii '9'

/-- `isxdigit(c)`. -/
def isxdigit (c : Byte) : Bool :=
  isdigit c || (ascii 'a' ≤ c && c ≤ ascii 'f') ||
    (ascii 'A' ≤ c && c ≤ ascii 'F')

/-- `toupper(c)`. -/
def toupper (c : Byte) : Byte :=
  if ascii 'a' ≤ c && c ≤ ascii 'z' then c - 32 else c

/-- The character that `printf` uses for a digit below 16. -/
def digitChar (digit : Nat) : Byte :=
  if digit < 10 then .ofNat 8 (48 + digit) else .ofNat 8 (87 + digit)

/-- The numeral that `printf` writes for a number. -/
def numeral (base number : Nat) : List Byte :=
  if number = 0 then [digitChar 0]
  else (Nat.digits base number).reverse.map digitChar

/-- The numeral that `printf` pads with zeros up to a width. -/
def paddedNumeral (base width number : Nat) : List Byte :=
  List.replicate (width - (numeral base number).length) (digitChar 0) ++
    numeral base number

/-- The number of a numeral. -/
def numeralValue
    (base : Nat)
    (digit : Byte → Nat)
    (text : List Byte) : Nat :=
  text.foldl (fun value c => value * base + digit c) 0

section Classes

variable {c : Byte}

theorem isxdigit_of_isdigit
    (digit : isdigit c = true) :
    isxdigit c = true := by
  simp [isxdigit, digit]

@[simp] theorem isspace_comma : isspace (ascii ',') = false := by
  decide

@[simp] theorem isxdigit_comma : isxdigit (ascii ',') = false := by
  decide

/-- A maximal run of characters of one class. -/
theorem takeWhile_append_eq
    {inClass : Byte → Bool}
    {run tail : List Byte}
    (inside : ∀ c ∈ run, inClass c = true)
    (ends : ∀ c ∈ tail.head?, inClass c = false) :
    (run ++ tail).takeWhile inClass = run ∧
      (run ++ tail).dropWhile inClass = tail := by
  rw [List.takeWhile_append_of_pos inside,
    List.dropWhile_append_of_pos inside]
  cases tail with
  | nil =>
      simp
  | cons c rest =>
      have outside : ¬inClass c = true := by
        simpa using ends
      rw [List.takeWhile_cons_of_neg outside,
        List.dropWhile_cons_of_neg outside, List.append_nil]
      exact ⟨rfl, rfl⟩

/-- A hexadecimal digit is no separator and does not end a string. -/
theorem isxdigit_separate :
    ∀ c : Byte, isxdigit c = true →
      isspace c = false ∧ c ≠ ascii ',' ∧ c ≠ 0 := by
  decide

/-- A blank is no digit and no separator and does not end a string. -/
theorem isspace_separate :
    ∀ c : Byte, isspace c = true →
      isxdigit c = false ∧ c ≠ ascii ',' ∧ c ≠ 0 := by
  decide

theorem isdigit_digitChar
    {digit : Nat}
    (bound : digit < 10) :
    isdigit (digitChar digit) = true := by
  have checked : ∀ small : Fin 10, isdigit (digitChar small) = true := by
    decide
  exact checked ⟨digit, bound⟩

theorem isxdigit_digitChar
    {digit : Nat}
    (bound : digit < 16) :
    isxdigit (digitChar digit) = true := by
  have checked : ∀ small : Fin 16, isxdigit (digitChar small) = true := by
    decide
  exact checked ⟨digit, bound⟩

end Classes

section Value

variable {base : Nat} {digit : Byte → Nat}

@[simp] theorem numeralValue_nil :
    numeralValue base digit [] = 0 :=
  rfl

/-- A numeral extended to the right. -/
theorem numeralValue_append_singleton
    (text : List Byte)
    (c : Byte) :
    numeralValue base digit (text ++ [c]) =
      numeralValue base digit text * base + digit c := by
  simp [numeralValue]

/-- A numeral in two parts. -/
theorem numeralValue_append
    (first second : List Byte) :
    numeralValue base digit (first ++ second) =
      numeralValue base digit first * base ^ second.length +
        numeralValue base digit second := by
  induction second using List.reverseRecOn with
  | nil =>
      simp
  | append_singleton rest c inductionHypothesis =>
      rw [← List.append_assoc, numeralValue_append_singleton,
        numeralValue_append_singleton, inductionHypothesis,
        List.length_append, List.length_singleton, pow_succ]
      ring

/-- Leading zeros do not count. -/
theorem numeralValue_replicate
    (isZero : digit (digitChar 0) = 0)
    (count : Nat) :
    numeralValue base digit (List.replicate count (digitChar 0)) = 0 := by
  induction count with
  | zero =>
      rfl
  | succ count inductionHypothesis =>
      rw [List.replicate_succ', numeralValue_append_singleton,
        inductionHypothesis, isZero]
      simp

/-- A numeral denotes its number. -/
theorem numeralValue_numeral
    (basePositive : 1 < base)
    (reads : ∀ number < base, digit (digitChar number) = number)
    (number : Nat) :
    numeralValue base digit (numeral base number) = number := by
  by_cases isZero : number = 0
  · subst isZero
    simpa [numeral, numeralValue] using reads 0 (by omega)
  · rw [numeral, if_neg isZero, numeralValue, List.foldl_map,
      List.foldl_reverse]
    have folded :
        ∀ digits : List Nat,
          (∀ number ∈ digits, number < base) →
          digits.foldr
              (fun number value =>
                value * base + digit (digitChar number)) 0 =
            Nat.ofDigits base digits := by
      intro digits
      induction digits with
      | nil =>
          simp
      | cons number rest inductionHypothesis =>
          intro bounded
          rw [List.forall_mem_cons] at bounded
          rw [List.foldr_cons, inductionHypothesis bounded.2,
            reads number bounded.1, Nat.ofDigits_cons]
          ring
    rw [folded _ fun _ isDigit => Nat.digits_lt_base basePositive isDigit,
      Nat.ofDigits_digits]

/-- A padded numeral denotes its number. -/
theorem numeralValue_paddedNumeral
    (basePositive : 1 < base)
    (reads : ∀ number < base, digit (digitChar number) = number)
    (width number : Nat) :
    numeralValue base digit (paddedNumeral base width number) =
      number := by
  rw [paddedNumeral, numeralValue_append,
    numeralValue_replicate (reads 0 (by omega)),
    numeralValue_numeral basePositive reads]
  simp

/-- A numeral has at least one digit. -/
theorem numeral_ne_nil (number : Nat) : numeral base number ≠ [] := by
  unfold numeral
  split
  · simp
  · simpa [Nat.digits_eq_nil_iff_eq_zero] using ‹_›

/-- The characters of a numeral are digits below the base. -/
theorem exists_digitChar_of_mem_numeral
    (basePositive : 1 < base)
    {number : Nat}
    {c : Byte}
    (isMember : c ∈ numeral base number) :
    ∃ digit < base, c = digitChar digit := by
  unfold numeral at isMember
  split at isMember
  · rw [List.mem_singleton] at isMember
    exact ⟨0, by omega, isMember⟩
  · simp only [List.mem_map, List.mem_reverse] at isMember
    obtain ⟨digit, isDigit, rfl⟩ := isMember
    exact ⟨digit, Nat.digits_lt_base basePositive isDigit, rfl⟩

/-- The number of digits of a numeral. -/
theorem length_numeral_le
    (basePositive : 1 < base)
    {number count : Nat}
    (countPositive : 1 ≤ count)
    (bound : number < base ^ count) :
    (numeral base number).length ≤ count := by
  unfold numeral
  split
  · simpa using countPositive
  · simpa [Nat.digits_length_le_iff basePositive] using bound

/-- Padding does not exceed the width. -/
theorem length_paddedNumeral_le
    {width number count : Nat}
    (widthBound : width ≤ count)
    (bound : (numeral base number).length ≤ count) :
    (paddedNumeral base width number).length ≤ count := by
  rw [paddedNumeral, List.length_append, List.length_replicate]
  omega

end Value

section Lists

variable {items : List (List Byte)}

/-- Texts that are separated by commas. -/
def joined (items : List (List Byte)) : List Byte :=
  [ascii ','].intercalate items

/-- Texts with a separator before the first one and commas between them. -/
def separated (sep : List Byte) : List (List Byte) → List Byte
  | [] => []
  | item :: rest => sep ++ item ++ separated [ascii ','] rest

theorem joined_cons
    (item : List Byte)
    (nonempty : items ≠ []) :
    joined (item :: items) = item ++ ascii ',' :: joined items := by
  cases items with
  | nil =>
      exact absurd rfl nonempty
  | cons next rest =>
      simp [joined, List.intercalate]

@[simp] theorem joined_singleton (item : List Byte) :
    joined [item] = item := by
  simp [joined, List.intercalate]

theorem separated_eq_joined
    (sep : List Byte)
    (nonempty : items ≠ []) :
    separated sep items = sep ++ joined items := by
  induction items generalizing sep with
  | nil =>
      exact absurd rfl nonempty
  | cons item rest inductionHypothesis =>
      rw [separated, List.append_assoc]
      cases rest with
      | nil =>
          simp [separated]
      | cons next others =>
          rw [inductionHypothesis _ (by simp), joined_cons item (by simp)]
          rfl

/-- Joined texts are not empty, if the first one is not. -/
theorem joined_ne_nil
    {item : List Byte}
    (nonempty : item ≠ []) :
    joined (item :: items) ≠ [] := by
  cases items with
  | nil =>
      simpa using nonempty
  | cons next rest =>
      rw [joined_cons item (by simp)]
      simp

/-- What is printed of texts before the last one. -/
def beforeLast (sep : List Byte) (items : List (List Byte)) : List Byte :=
  separated sep items.dropLast

theorem beforeLast_cons
    (sep item : List Byte)
    (nonempty : items ≠ []) :
    beforeLast sep (item :: items) =
      sep ++ item ++ beforeLast [ascii ','] items := by
  rw [beforeLast, List.dropLast_cons_of_ne_nil nonempty, separated]
  rfl

/-- What is printed before the last text is shorter than all. -/
theorem length_beforeLast_le (sep : List Byte) :
    (beforeLast sep items).length ≤ (separated sep items).length := by
  induction items generalizing sep with
  | nil =>
      exact le_rfl
  | cons item rest inductionHypothesis =>
      cases rest with
      | nil =>
          simp [beforeLast, separated]
      | cons next others =>
          have following := inductionHypothesis [ascii ',']
          rw [beforeLast_cons sep item (by simp), separated]
          simp only [List.length_append] at following ⊢
          omega

end Lists

end LibKern
