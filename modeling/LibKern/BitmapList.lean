import LibKern.BitmapShift
import Mathlib.Data.List.TakeWhile

namespace LibKern.Bitmap

/-!
# The language that `bitmap_parselist` accepts

The text of a bitmap is a list of numbers and ranges.  The parser converts
every number to `unsigned int`, so that it compares the remainders of large
numbers with the size of the bitmap.
-/

open Program

section Bits

variable {memory : CMemory}
variable {addr maskp : Int}

/-- The inner loop of `bitmap_parselist` sets the bits of a range. -/
theorem ensures_setRange
    {a b : BitVec 32}
    {count : Nat}
    (mapped : memory.longs.Mapped maskp count)
    (inside : b.toNat / 64 < count)
    (bound : b.toNat < 2 ^ 32 - 1) :
    (loop (setRange maskp b) a).Ensures memory fun _ after =>
      after.chars = memory.chars ∧
        after.longs.Mapped maskp count ∧
        ∀ index,
          after.longs.bit maskp index =
            (memory.longs.bit maskp index ||
              decide (a.toNat ≤ index ∧ index ≤ b.toNat)) := by
  induction remaining : b.toNat + 1 - a.toNat generalizing a memory with
  | zero =>
      rw [ensures_loop, setRange, if_neg (by rw [BitVec.le_def]; omega),
        ensures_pure]
      refine ⟨rfl, mapped, fun index => ?_⟩
      rw [decide_eq_false (by omega), Bool.or_false]
  | succ remaining inductionHypothesis =>
      have ordered : a.toNat ≤ b.toNat := by
        omega
      rw [ensures_loop, setRange, if_pos (BitVec.le_def.mpr ordered),
        ensures_bind]
      refine (ensures_setBit mapped
        ((Nat.div_le_div_right ordered).trans_lt inside)).weaken ?_
      intro _ between result
      obtain ⟨sameChars, stillMapped, isSet⟩ := result
      have next : (a + 1).toNat = a.toNat + 1 := by
        rw [BitVec.toNat_add]
        simp
        omega
      rw [ensures_pure]
      refine (inductionHypothesis stillMapped (by omega)).weaken ?_
      intro _ after result
      obtain ⟨stillSameChars, finallyMapped, finallySet⟩ := result
      refine ⟨stillSameChars.trans sameChars, finallyMapped,
        fun index => ?_⟩
      rw [finallySet index, isSet index, next, Bool.or_assoc,
        ← Bool.decide_or]
      congr 2
      exact propext ⟨fun _ => by omega, fun _ => by omega⟩

end Bits

section Language

/-- The number of a string of decimal digits. -/
def decimalNumber (digits : List Byte) : Nat :=
  numeralValue 10 decimalDigit digits

/-- At least one decimal digit and nothing else. -/
structure Digits (digits : List Byte) : Prop where
  nonempty : digits ≠ []
  decimal : ∀ c ∈ digits, isdigit c = true

/-- A number or a range of numbers. -/
inductive Item : List Byte → Nat × Nat → Prop where
  | number
      {digits : List Byte} :
      Digits digits →
      Item digits (decimalNumber digits, decimalNumber digits)
  | range
      {first last : List Byte} :
      Digits first →
      Digits last →
      Item (first ++ ascii '-' :: last)
        (decimalNumber first, decimalNumber last)

/-- The string ends here, or the line does. -/
def Ends (text : List Byte) : Prop :=
  text = [] ∨ text.head? = some (ascii '\n')

/-- Items that are separated by commas, with an optional comma at the end. -/
inductive Items : List Byte → List (Nat × Nat) → Prop where
  | last
      {text tail : List Byte}
      {item : Nat × Nat} :
      Item text item →
      Ends tail →
      Items (text ++ tail) [item]
  | comma
      {text tail : List Byte}
      {item : Nat × Nat} :
      Item text item →
      Ends tail →
      Items (text ++ ascii ',' :: tail) [item]
  | more
      {text rest : List Byte}
      {item : Nat × Nat}
      {items : List (Nat × Nat)} :
      Item text item →
      Items rest items →
      Items (text ++ ascii ',' :: rest) (item :: items)

/-- The item at the start of a text, and the text after it. -/
def readItem (text : List Byte) : Option ((Nat × Nat) × List Byte) :=
  let first := text.takeWhile isdigit
  let rest := text.dropWhile isdigit
  if first = [] then
    none
  else if rest.head? = some (ascii '-') then
    let last := rest.tail.takeWhile isdigit
    if last = [] then
      none
    else
      some ((decimalNumber first, decimalNumber last),
        rest.tail.dropWhile isdigit)
  else
    some ((decimalNumber first, decimalNumber first), rest)

variable {text tail rest : List Byte}
variable {item : Nat × Nat}
variable {items others : List (Nat × Nat)}

/-- What can follow an item. -/
def Separate (tail : List Byte) : Prop :=
  ∀ c ∈ tail.head?, isdigit c = false ∧ c ≠ ascii '-'

theorem Ends.separate
    (ends : Ends tail) :
    Separate tail := by
  intro c isHead
  rcases ends with rfl | isNewline
  · simp at isHead
  · rw [isNewline, Option.mem_some_iff] at isHead
    subst isHead
    decide

theorem separate_comma (tail : List Byte) :
    Separate (ascii ',' :: tail) := by
  intro c isHead
  rw [List.head?_cons, Option.mem_some_iff] at isHead
  subst isHead
  decide

/-- An item is read up to what follows it. -/
theorem Item.readItem
    (isItem : Item text item)
    (separate : Separate tail) :
    readItem (text ++ tail) = some (item, tail) := by
  cases isItem with
  | number digits =>
      obtain ⟨taken, dropped⟩ :=
        takeWhile_append_eq digits.decimal fun c isHead =>
          (separate c isHead).1
      have noRange : tail.head? ≠ some (ascii '-') :=
        fun isHead => (separate _ isHead).2 rfl
      simp only [Bitmap.readItem, taken, dropped, digits.nonempty,
        noRange, ↓reduceIte]
  | @range first last firstDigits lastDigits =>
      have notDigit :
          ∀ c ∈ (ascii '-' :: (last ++ tail)).head?,
            isdigit c = false := by
        intro c isHead
        rw [List.head?_cons, Option.mem_some_iff] at isHead
        subst isHead
        decide
      obtain ⟨taken, dropped⟩ :=
        takeWhile_append_eq firstDigits.decimal notDigit
      obtain ⟨takenLast, droppedLast⟩ :=
        takeWhile_append_eq lastDigits.decimal fun c isHead =>
          (separate c isHead).1
      rw [List.append_assoc, List.cons_append]
      simp only [Bitmap.readItem, taken, dropped, takenLast, droppedLast,
        firstDigits.nonempty, lastDigits.nonempty, List.head?_cons,
        List.tail_cons, ↓reduceIte]

/-- What is read is an item and what follows it. -/
theorem exists_item_of_readItem
    (isRead : readItem text = some (item, tail)) :
    ∃ itemText, Item itemText item ∧ text = itemText ++ tail := by
  have whole := List.takeWhile_append_dropWhile (p := isdigit) (l := text)
  have taken
      (text : List Byte)
      (nonempty : text.takeWhile isdigit ≠ []) :
      Digits (text.takeWhile isdigit) :=
    ⟨nonempty, fun _ isTaken => List.mem_takeWhile_imp isTaken⟩
  unfold readItem at isRead
  dsimp only at isRead
  split_ifs at isRead with noFirst isRange noLast
  · obtain ⟨rfl, rfl⟩ := Prod.mk.inj (Option.some.inj isRead)
    have wholeRest :=
      List.takeWhile_append_dropWhile (p := isdigit)
        (l := (text.dropWhile isdigit).tail)
    refine ⟨_, .range (taken _ noFirst) (taken _ noLast), ?_⟩
    rw [List.append_assoc, List.cons_append, wholeRest,
      List.cons_head?_tail isRange, whole]
  · obtain ⟨rfl, rfl⟩ := Prod.mk.inj (Option.some.inj isRead)
    exact ⟨_, .number (taken _ noFirst), whole.symm⟩

/-- No digit follows what is read. -/
theorem head_of_readItem
    (isRead : readItem text = some (item, tail)) :
    tail.takeWhile isdigit = [] := by
  have stops
      (text : List Byte) :
      (text.dropWhile isdigit).takeWhile isdigit = [] := by
    have outside := List.head?_dropWhile_not isdigit text
    cases dropped : text.dropWhile isdigit with
    | nil =>
        rfl
    | cons c rest =>
        rw [dropped] at outside
        exact List.takeWhile_cons_of_neg (by simpa using outside)
  unfold readItem at isRead
  dsimp only at isRead
  split_ifs at isRead
  · obtain ⟨-, rfl⟩ := Prod.mk.inj (Option.some.inj isRead)
    exact stops _
  · obtain ⟨-, rfl⟩ := Prod.mk.inj (Option.some.inj isRead)
    exact stops _

/-- Nothing is read where there is no digit. -/
theorem readItem_eq_none
    (noDigits : text.takeWhile isdigit = []) :
    readItem text = none := by
  simp [readItem, noDigits]

/-- What is left of a text after an optional comma. -/
def skipComma (text : List Byte) : List Byte :=
  if text.head? = some (ascii ',') then text.tail else text

/-- Something is read. -/
theorem length_of_readItem
    (isRead : readItem text = some (item, tail)) :
    (skipComma tail).length < text.length := by
  obtain ⟨itemText, isItem, rfl⟩ := exists_item_of_readItem isRead
  have nonempty : itemText ≠ [] := by
    cases isItem with
    | number digits =>
        exact digits.nonempty
    | range _ _ =>
        simp
  have shorter : (skipComma tail).length ≤ tail.length := by
    rw [skipComma]
    split
    · simp
    · exact le_rfl
  have positive := List.length_pos_iff.mpr nonempty
  rw [List.length_append]
  omega

/-- What is left is part of the text. -/
theorem mem_of_mem_skipComma
    (isRead : readItem text = some (item, tail))
    {c : Byte}
    (isMember : c ∈ skipComma tail) :
    c ∈ text := by
  obtain ⟨itemText, -, rfl⟩ := exists_item_of_readItem isRead
  rw [skipComma] at isMember
  split at isMember
  · exact List.mem_append_right _ (List.mem_of_mem_tail isMember)
  · exact List.mem_append_right _ isMember

theorem Ends.not_comma
    (ends : Ends tail) :
    tail.head? ≠ some (ascii ',') := by
  rcases ends with rfl | isNewline
  · simp
  · rw [isNewline]
    decide

/-- There are no items where nothing is read. -/
theorem not_items_of_readItem
    (noItem : readItem text = none) :
    ¬Items text items := by
  intro isItems
  cases isItems with
  | last isItem ends =>
      rw [isItem.readItem ends.separate] at noItem
      exact absurd noItem (by simp)
  | @comma _ tail _ isItem _ =>
      rw [isItem.readItem (separate_comma tail)] at noItem
      exact absurd noItem (by simp)
  | @more _ rest _ _ isItem _ =>
      rw [isItem.readItem (separate_comma rest)] at noItem
      exact absurd noItem (by simp)

/-- The items of a text are determined from left to right. -/
theorem items_iff :
    Items text items ↔
      ∃ item tail,
        readItem text = some (item, tail) ∧
          (Ends (skipComma tail) ∧ items = [item] ∨
            ∃ others,
              Items (skipComma tail) others ∧ items = item :: others) := by
  constructor
  · intro isItems
    cases isItems with
    | @last _ tail item isItem ends =>
        have skipped : skipComma tail = tail :=
          if_neg ends.not_comma
        exact ⟨item, tail, isItem.readItem ends.separate,
          .inl ⟨by rwa [skipped], rfl⟩⟩
    | @comma _ tail item isItem ends =>
        exact ⟨item, _, isItem.readItem (separate_comma tail),
          .inl ⟨ends, rfl⟩⟩
    | @more _ rest item others isItem isItems =>
        exact ⟨item, _, isItem.readItem (separate_comma rest),
          .inr ⟨others, isItems, rfl⟩⟩
  · intro parts
    obtain ⟨item, tail, isRead, parts⟩ := parts
    obtain ⟨itemText, isItem, rfl⟩ := exists_item_of_readItem isRead
    by_cases isComma : tail.head? = some (ascii ',')
    · obtain ⟨rest, rfl⟩ := List.head?_eq_some_iff.mp isComma
      rcases parts with ⟨ends, rfl⟩ | ⟨others, isItems, rfl⟩
      · exact .comma isItem ends
      · exact .more isItem isItems
    · rw [skipComma, if_neg isComma] at parts
      rcases parts with ⟨ends, rfl⟩ | ⟨others, isItems, -⟩
      · exact .last isItem ends
      · exact absurd isItems
          (not_items_of_readItem
            (readItem_eq_none (head_of_readItem isRead)))

/-- What is read is the first item. -/
theorem Items.mem_of_readItem
    (isItems : Items text items)
    (isRead : readItem text = some (item, tail)) :
    item ∈ items := by
  obtain ⟨_, _, otherRead, parts⟩ := items_iff.mp isItems
  rw [isRead, Option.some.injEq, Prod.mk.injEq] at otherRead
  obtain ⟨rfl, rfl⟩ := otherRead
  rcases parts with ⟨-, rfl⟩ | ⟨_, -, rfl⟩
  · simp
  · simp

/-- The end of a text is not an item. -/
theorem Ends.readItem
    (ends : Ends text) :
    readItem text = none := by
  apply readItem_eq_none
  rcases ends with rfl | isNewline
  · rfl
  · obtain ⟨rest, rfl⟩ := List.head?_eq_some_iff.mp isNewline
    exact List.takeWhile_cons_of_neg (by decide)

/-- A text has one list of items at most. -/
theorem Items.unique
    (one : Items text items)
    (another : Items text others) :
    items = others := by
  induction size : text.length using Nat.strong_induction_on
    generalizing text items others with
  | h size inductionHypothesis =>
      subst size
      obtain ⟨item, tail, isRead, parts⟩ := items_iff.mp one
      obtain ⟨other, otherTail, otherRead, otherParts⟩ :=
        items_iff.mp another
      rw [isRead, Option.some.injEq, Prod.mk.injEq] at otherRead
      obtain ⟨rfl, rfl⟩ := otherRead
      rcases parts with ⟨ends, rfl⟩ | ⟨more, isMore, rfl⟩
      · rcases otherParts with ⟨-, rfl⟩ | ⟨_, otherMore, -⟩
        · rfl
        · exact absurd otherMore (not_items_of_readItem ends.readItem)
      · rcases otherParts with ⟨ends, -⟩ | ⟨otherMore, isOtherMore, rfl⟩
        · exact absurd isMore (not_items_of_readItem ends.readItem)
        · rw [inductionHypothesis _ (length_of_readItem isRead) isMore
            isOtherMore rfl]

end Language

section Parse

variable {memory : CMemory}
variable {maskp bp : Int}
variable {nmaskbits : Nat}
variable {text : List Byte}

/-- The value of a number after its conversion to `unsigned int`. -/
def truncated (number : Nat) : Nat :=
  min number ulongMax % 2 ^ 32

/-- The parser takes an item for a range of bits of the bitmap. -/
def Fits (nmaskbits : Nat) (item : Nat × Nat) : Prop :=
  truncated item.1 ≤ truncated item.2 ∧ truncated item.2 < nmaskbits

/-- The bits that the parser sets for items. -/
def Union
    (before after : Region (BitVec 64))
    (maskp : Int)
    (items : List (Nat × Nat)) : Prop :=
  ∀ index,
    after.bit maskp index = true ↔
      before.bit maskp index = true ∨
        ∃ item ∈ items,
          truncated item.1 ≤ index ∧ index ≤ truncated item.2

/-- The result of `bitmap_parselist` on a text after other items. -/
def ListVerdict
    (maskp : Int)
    (nmaskbits : Nat)
    (text : List Byte)
    (before : CMemory)
    (status : Int)
    (after : CMemory) : Prop :=
  after.chars = before.chars ∧
    after.longs.Mapped maskp (bitsToLongs nmaskbits) ∧
    (status = 0 ∧
        (∃ items,
          Items text items ∧ (∀ item ∈ items, Fits nmaskbits item) ∧
            Union before.longs after.longs maskp items) ∨
      (status = -einval ∨ status = -erange) ∧
        ∀ items,
          Items text items → ¬∀ item ∈ items, Fits nmaskbits item)

/-- The first character of a string. -/
theorem cell_of_stores
    (stores : memory.chars.Stores bp (text ++ [0])) :
    memory.chars.cell bp = some (text.headD 0) := by
  cases text with
  | nil =>
      exact stores.head
  | cons c rest =>
      exact stores.head

/-- The string after a part of it. -/
theorem stores_drop
    {first rest : List Byte}
    (stores : memory.chars.Stores bp (text ++ [0]))
    (parts : first ++ rest = text) :
    memory.chars.Stores (bp + first.length) (rest ++ [0]) := by
  rw [← parts, List.append_assoc] at stores
  exact stores.of_append_right

/-- `strtoul` at a string of digits. -/
theorem ensures_strtoul_takeWhile
    (stores : memory.chars.Stores bp (text ++ [0])) :
    (strtoul bp).Ensures memory fun result after =>
      after = memory ∧
        result =
          (.ofNat 64
            (min (decimalNumber (text.takeWhile isdigit)) ulongMax),
            bp + (text.takeWhile isdigit).length) := by
  have whole := List.takeWhile_append_dropWhile (p := isdigit) (l := text)
  have following := stores_drop stores whole
  have notDigit :
      isdigit ((text.dropWhile isdigit).headD 0) = false := by
    have stops := List.head?_dropWhile_not isdigit text
    cases dropped : text.dropWhile isdigit with
    | nil =>
        decide
    | cons c rest =>
        rw [dropped] at stops
        exact stops
  apply ensures_strtoul
  · rw [← whole, List.append_assoc] at stores
    exact stores.of_append.append
      (Region.stores_singleton (cell_of_stores following))
  · exact fun _ isTaken => List.mem_takeWhile_imp isTaken
  · exact notDigit

/-- The conversion of `unsigned long` to `unsigned int`. -/
theorem toNat_truncated (number : Nat) :
    ((BitVec.ofNat 64 (min number ulongMax)).setWidth 32).toNat =
      truncated number := by
  rw [BitVec.toNat_setWidth, BitVec.toNat_ofNat, truncated, ulongMax]
  omega

/-- Whether there are digits at the start of a string. -/
theorem isdigit_head_iff :
    isdigit (text.headD 0) = true ↔ text.takeWhile isdigit ≠ [] := by
  cases text with
  | nil =>
      decide
  | cons c rest =>
      by_cases isDigit : isdigit c = true <;> simp [isDigit]

/-- Whether a string starts with a character. -/
theorem head_eq_iff
    {c : Byte}
    (nonzero : c ≠ 0) :
    text.headD 0 = c ↔ text.head? = some c := by
  cases text with
  | nil =>
      simpa using nonzero.symm
  | cons first rest =>
      simp

/-- What is read of the end of a range. -/
theorem ensures_parseRangeEnd
    {a : BitVec 32}
    (stores : memory.chars.Stores bp (text ++ [0])) :
    (parseRangeEnd a bp).Ensures memory fun result after =>
      after = memory ∧
        (text.head? ≠ some (ascii '-') ∧ result = .ok (a, bp) ∨
          ∃ rest,
            text = ascii '-' :: rest ∧
              (rest.takeWhile isdigit = [] ∧
                  result = .error (-einval) ∨
                rest.takeWhile isdigit ≠ [] ∧
                  ∃ b next,
                    result = .ok (b, next) ∧
                      b.toNat =
                        truncated
                          (decimalNumber (rest.takeWhile isdigit)) ∧
                      memory.chars.Stores next
                        (rest.dropWhile isdigit ++ [0]))) := by
  rw [parseRangeEnd, ensures_bind, ensures_loadChar]
  refine ⟨_, cell_of_stores stores, ?_⟩
  by_cases isRange : text.head? = some (ascii '-')
  · obtain ⟨rest, rfl⟩ := List.head?_eq_some_iff.mp isRange
    have restStores : memory.chars.Stores (bp + 1) (rest ++ [0]) :=
      stores.tail
    rw [if_pos (by simp), ensures_bind, ensures_loadChar]
    refine ⟨_, cell_of_stores restStores, ?_⟩
    by_cases noDigits : rest.takeWhile isdigit = []
    · rw [if_pos (by rw [isdigit_head_iff]; simpa using noDigits),
        ensures_pure]
      exact ⟨rfl, .inr ⟨rest, rfl, .inl ⟨noDigits, rfl⟩⟩⟩
    · rw [if_neg (by rw [isdigit_head_iff]; simpa using noDigits),
        ensures_bind]
      refine (ensures_strtoul_takeWhile restStores).weaken ?_
      intro result after scanned
      obtain ⟨rfl, rfl⟩ := scanned
      rw [ensures_pure]
      exact ⟨rfl, .inr ⟨rest, rfl, .inr ⟨noDigits, _, _, rfl,
        toNat_truncated _,
        stores_drop restStores List.takeWhile_append_dropWhile⟩⟩⟩
  · rw [if_neg (by rwa [head_eq_iff (by decide)]), ensures_pure]
    exact ⟨rfl, .inl ⟨isRange, rfl⟩⟩

/-- What one round of the loop of `bitmap_parselist` leads to. -/
inductive RangeStep
    (maskp : Int)
    (nmaskbits : Nat)
    (text : List Byte)
    (before after : CMemory) : Flow Int Int → Prop where
  | noItem :
      readItem text = none →
      RangeStep maskp nmaskbits text before after (.done (-einval))
  | noRange
      {item : Nat × Nat}
      {tail : List Byte}
      {status : Int} :
      readItem text = some (item, tail) →
      ¬Fits nmaskbits item →
      status = -einval ∨ status = -erange →
      RangeStep maskp nmaskbits text before after (.done status)
  | ended
      {item : Nat × Nat}
      {tail : List Byte} :
      readItem text = some (item, tail) →
      Fits nmaskbits item →
      Union before.longs after.longs maskp [item] →
      Ends (skipComma tail) →
      RangeStep maskp nmaskbits text before after (.done 0)
  | continued
      {item : Nat × Nat}
      {tail : List Byte}
      {next : Int} :
      readItem text = some (item, tail) →
      Fits nmaskbits item →
      Union before.longs after.longs maskp [item] →
      ¬Ends (skipComma tail) →
      after.chars.Stores next (skipComma tail ++ [0]) →
      RangeStep maskp nmaskbits text before after (.next next)

/-- The end of a string is a null character or a newline. -/
theorem ends_iff
    (nonzero : ∀ c ∈ text, c ≠ 0) :
    Ends text ↔ ¬(text.headD 0 ≠ 0 ∧ text.headD 0 ≠ ascii '\n') := by
  cases text with
  | nil =>
      simp [Ends]
  | cons c rest =>
      have present := nonzero c (by simp)
      simpa [Ends] using .inl present

/-- Setting a range that was read. -/
theorem ensures_finishRange
    {a b : BitVec 32}
    {item : Nat × Nat}
    {tail : List Byte}
    {next : Int}
    (bound : nmaskbits < 2 ^ 31)
    (mapped : memory.longs.Mapped maskp (bitsToLongs nmaskbits))
    (isRead : readItem text = some (item, tail))
    (isFirst : a.toNat = truncated item.1)
    (isLast : b.toNat = truncated item.2)
    (stores : memory.chars.Stores next (tail ++ [0]))
    (nonzero : ∀ c ∈ tail, c ≠ 0) :
    (finishRange maskp nmaskbits a b next).Ensures memory
      fun flow after =>
        after.chars = memory.chars ∧
          after.longs.Mapped maskp (bitsToLongs nmaskbits) ∧
          RangeStep maskp nmaskbits text memory after flow := by
  rw [finishRange]
  by_cases ordered : a ≤ b
  · rw [if_neg (not_not.mpr ordered)]
    rw [BitVec.le_def, isFirst, isLast] at ordered
    by_cases inside : truncated item.2 < nmaskbits
    · rw [if_neg (by omega), ensures_bind]
      refine (ensures_setRange mapped
        (lt_bitsToLongs (by omega)) (by omega)).weaken ?_
      intro _ after result
      obtain ⟨sameChars, stillMapped, isSet⟩ := result
      have union : Union memory.longs after.longs maskp [item] := by
        intro index
        rw [isSet index, isFirst, isLast]
        simp
      rw [← sameChars] at stores
      have skipped :
          after.chars.Stores
            (if tail.headD 0 = ascii ',' then next + 1 else next)
            (skipComma tail ++ [0]) := by
        rw [skipComma]
        by_cases isComma : tail.head? = some (ascii ',')
        · obtain ⟨rest, rfl⟩ := List.head?_eq_some_iff.mp isComma
          exact stores.tail
        · rw [if_neg (by rwa [head_eq_iff (by decide)]), if_neg isComma]
          exact stores
      have skippedNonzero : ∀ c ∈ skipComma tail, c ≠ 0 := by
        intro c isMember
        rw [skipComma] at isMember
        split at isMember
        · exact nonzero c (List.mem_of_mem_tail isMember)
        · exact nonzero c isMember
      simp only [ensures_bind, ensures_loadChar]
      refine ⟨_, cell_of_stores stores, _, cell_of_stores skipped, ?_⟩
      by_cases ends : Ends (skipComma tail)
      · rw [if_neg ((ends_iff skippedNonzero).mp ends), ensures_pure]
        exact ⟨sameChars, stillMapped,
          .ended isRead ⟨ordered, inside⟩ union ends⟩
      · rw [if_pos (by rwa [ends_iff skippedNonzero, not_not] at ends),
          ensures_pure]
        exact ⟨sameChars, stillMapped,
          .continued isRead ⟨ordered, inside⟩ union ends skipped⟩
    · rw [if_pos (by omega), ensures_pure]
      exact ⟨rfl, mapped,
        .noRange isRead (fun fits => inside fits.2) (.inr rfl)⟩
  · rw [if_pos ordered, ensures_pure]
    rw [BitVec.le_def, isFirst, isLast] at ordered
    exact ⟨rfl, mapped,
      .noRange isRead (fun fits => ordered fits.1) (.inl rfl)⟩

/-- One round of the loop of `bitmap_parselist`. -/
theorem ensures_parseRange
    (bound : nmaskbits < 2 ^ 31)
    (mapped : memory.longs.Mapped maskp (bitsToLongs nmaskbits))
    (stores : memory.chars.Stores bp (text ++ [0]))
    (nonzero : ∀ c ∈ text, c ≠ 0) :
    (parseRange maskp nmaskbits bp).Ensures memory fun flow after =>
      after.chars = memory.chars ∧
        after.longs.Mapped maskp (bitsToLongs nmaskbits) ∧
        RangeStep maskp nmaskbits text memory after flow := by
  have whole := List.takeWhile_append_dropWhile (p := isdigit) (l := text)
  have following := stores_drop stores whole
  have restNonzero : ∀ c ∈ text.dropWhile isdigit, c ≠ 0 :=
    fun c isMember => nonzero c ((List.dropWhile_sublist _).mem isMember)
  rw [parseRange, ensures_bind, ensures_loadChar]
  refine ⟨_, cell_of_stores stores, ?_⟩
  by_cases noDigits : text.takeWhile isdigit = []
  · rw [if_pos (by rw [isdigit_head_iff]; simpa using noDigits),
      ensures_pure]
    exact ⟨rfl, mapped, .noItem (by simp [readItem, noDigits])⟩
  · rw [if_neg (by rw [isdigit_head_iff]; simpa using noDigits),
      ensures_bind]
    refine (ensures_strtoul_takeWhile stores).weaken ?_
    intro result after scanned
    obtain ⟨rfl, rfl⟩ := scanned
    dsimp only
    rw [ensures_bind]
    refine (ensures_parseRangeEnd following).weaken ?_
    intro ending after result
    obtain ⟨rfl, ⟨noRange, rfl⟩ | ⟨rest, isRest, parts⟩⟩ := result
    · have isRead :
          readItem text =
            some ((decimalNumber (text.takeWhile isdigit),
              decimalNumber (text.takeWhile isdigit)),
              text.dropWhile isdigit) := by
        simp only [readItem, noDigits, noRange, ↓reduceIte]
      exact ensures_finishRange bound mapped isRead (toNat_truncated _)
        (toNat_truncated _) following restNonzero
    · rcases parts with ⟨noLast, rfl⟩ |
        ⟨someLast, b, next, rfl, isLast, storesNext⟩
      · rw [ensures_pure]
        refine ⟨rfl, mapped, .noItem ?_⟩
        simp [readItem, noDigits, isRest, noLast]
      · have isRead :
            readItem text =
              some ((decimalNumber (text.takeWhile isdigit),
                decimalNumber (rest.takeWhile isdigit)),
                rest.dropWhile isdigit) := by
          simp [readItem, noDigits, isRest, someLast]
        refine ensures_finishRange bound mapped isRead
          (toNat_truncated _) isLast storesNext ?_
        intro c isMember
        apply restNonzero c
        rw [isRest]
        exact List.mem_cons_of_mem _
          ((List.dropWhile_sublist _).mem isMember)

/-- The verdict on a text from the verdict on the text after an item. -/
theorem ListVerdict.more
    {item : Nat × Nat}
    {tail : List Byte}
    {between after : CMemory}
    {status : Int}
    (verdict :
      ListVerdict maskp nmaskbits (skipComma tail) between status after)
    (sameChars : between.chars = memory.chars)
    (isRead : readItem text = some (item, tail))
    (fits : Fits nmaskbits item)
    (union : Union memory.longs between.longs maskp [item])
    (notEnds : ¬Ends (skipComma tail)) :
    ListVerdict maskp nmaskbits text memory status after := by
  obtain ⟨stillSame, mapped, ⟨accepted, items, isItems, allFit, rest⟩ |
    ⟨isError, none⟩⟩ := verdict
  · refine ⟨stillSame.trans sameChars, mapped, .inl ⟨accepted, item :: items,
      items_iff.mpr ⟨item, tail, isRead, .inr ⟨items, isItems, rfl⟩⟩,
      List.forall_mem_cons.mpr ⟨fits, allFit⟩, ?_⟩⟩
    intro index
    rw [rest index, union index, List.exists_mem_cons_iff]
    simp [or_assoc]
  · refine ⟨stillSame.trans sameChars, mapped, .inr ⟨isError, ?_⟩⟩
    intro items isItems allFit
    obtain ⟨_, _, otherRead, parts⟩ := items_iff.mp isItems
    rw [isRead, Option.some.injEq, Prod.mk.injEq] at otherRead
    obtain ⟨rfl, rfl⟩ := otherRead
    rcases parts with ⟨ends, -⟩ | ⟨others, isOthers, rfl⟩
    · exact notEnds ends
    · rw [List.forall_mem_cons] at allFit
      exact none others isOthers allFit.2

/-- The loop of `bitmap_parselist` decides whether a text is accepted. -/
theorem ensures_parseRanges
    (bound : nmaskbits < 2 ^ 31)
    (mapped : memory.longs.Mapped maskp (bitsToLongs nmaskbits))
    (stores : memory.chars.Stores bp (text ++ [0]))
    (nonzero : ∀ c ∈ text, c ≠ 0) :
    (loop (parseRange maskp nmaskbits) bp).Ensures memory
      (ListVerdict maskp nmaskbits text memory) := by
  induction size : text.length using Nat.strong_induction_on
    generalizing text bp memory with
  | h size inductionHypothesis =>
      subst size
      rw [ensures_loop]
      refine (ensures_parseRange bound mapped stores nonzero).weaken ?_
      intro flow after result
      obtain ⟨sameChars, stillMapped, step⟩ := result
      cases step with
      | noItem noItem =>
          exact ⟨sameChars, stillMapped, .inr ⟨.inl rfl, fun _ isItems =>
            absurd isItems (not_items_of_readItem noItem)⟩⟩
      | noRange isRead notFits isError =>
          refine ⟨sameChars, stillMapped, .inr ⟨isError, ?_⟩⟩
          intro items isItems allFit
          apply notFits
          apply allFit
          exact isItems.mem_of_readItem isRead
      | @ended item tail isRead fits union ends =>
          exact ⟨sameChars, stillMapped, .inl ⟨rfl, [item],
            items_iff.mpr ⟨item, tail, isRead, .inl ⟨ends, rfl⟩⟩,
            by simpa using fits, union⟩⟩
      | @continued item tail next isRead fits union notEnds storesNext =>
          refine (inductionHypothesis _ (length_of_readItem isRead)
            stillMapped storesNext ?_ rfl).weaken ?_
          · intro c isMember
            exact nonzero c (mem_of_mem_skipComma isRead isMember)
          · intro status final verdict
            exact verdict.more sameChars isRead fits union notEnds

/-- `bitmap_parselist` accepts items that fit. -/
theorem ensures_bitmapParselist
    (bound : nmaskbits < 2 ^ 31)
    (mapped : memory.longs.Mapped maskp (bitsToLongs nmaskbits))
    (stores : memory.chars.Stores bp (text ++ [0]))
    (nonzero : ∀ c ∈ text, c ≠ 0) :
    (bitmapParselist maskp nmaskbits bp).Ensures memory
      fun status after =>
        after.chars = memory.chars ∧
          after.longs.Mapped maskp (bitsToLongs nmaskbits) ∧
          (status = 0 ∧
              (∃ items,
                Items text items ∧ (∀ item ∈ items, Fits nmaskbits item) ∧
                  ∀ index < bitsToLongs nmaskbits * 64,
                    after.longs.bit maskp index = true ↔
                      ∃ item ∈ items,
                        truncated item.1 ≤ index ∧
                          index ≤ truncated item.2) ∨
            (status = -einval ∨ status = -erange) ∧
              ∀ items,
                Items text items → ¬∀ item ∈ items, Fits nmaskbits item) := by
  rw [bitmapParselist, ensures_bind]
  refine (ensures_bitmapZero mapped).weaken ?_
  intro _ cleared zeroed
  obtain ⟨sameChars, stillMapped, -, isZero⟩ := zeroed
  rw [← sameChars] at stores
  refine (ensures_parseRanges bound stillMapped stores nonzero).weaken ?_
  intro status after verdict
  obtain ⟨finallySame, finallyMapped,
    ⟨accepted, items, isItems, allFit, union⟩ | rejected⟩ := verdict
  · refine ⟨finallySame.trans sameChars, finallyMapped,
      .inl ⟨accepted, items, isItems, allFit, ?_⟩⟩
    intro index inside
    rw [union index, isZero index inside]
    simp
  · exact ⟨finallySame.trans sameChars, finallyMapped, .inr rejected⟩

end Parse

section Accepts

variable {memory : CMemory}
variable {maskp bp : Int}
variable {nmaskbits : Nat}
variable {text : List Byte}

/-- The items are ranges of bits of the bitmap. -/
def Valid (nmaskbits : Nat) (items : List (Nat × Nat)) : Prop :=
  ∀ item ∈ items, item.1 ≤ item.2 ∧ item.2 < nmaskbits

/-- `bitmap_parselist` accepts valid lists and nothing else. -/
def MeetsList
    (memory : CMemory)
    (maskp : Int)
    (nmaskbits : Nat)
    (bp : Int)
    (text : List Byte) : Prop :=
  (bitmapParselist maskp nmaskbits bp).Ensures memory fun status after =>
    (status = 0 ↔ ∃ items, Items text items ∧ Valid nmaskbits items) ∧
      ∀ items,
        Items text items →
        Valid nmaskbits items →
        ∀ index < bitsToLongs nmaskbits * 64,
          after.longs.bit maskp index = true ↔
            ∃ item ∈ items, item.1 ≤ index ∧ index ≤ item.2

/--
A list with a number that does not fit into 32 bits, while all numbers taken
modulo `2 ^ 32` form ranges of bits of the bitmap.
-/
def ReadsLargeNumber (nmaskbits : Nat) (text : List Byte) : Prop :=
  ∃ items,
    Items text items ∧
      (∀ item ∈ items,
        item.1 < 2 ^ 64 ∧ item.2 < 2 ^ 64 ∧
          item.1 % 2 ^ 32 ≤ item.2 % 2 ^ 32 ∧
          item.2 % 2 ^ 32 < nmaskbits) ∧
      ∃ item ∈ items, 2 ^ 32 ≤ item.1 ∨ 2 ^ 32 ≤ item.2

theorem truncated_of_lt
    {number : Nat}
    (small : number < 2 ^ 32) :
    truncated number = number := by
  rw [truncated, ulongMax]
  omega

/-- When the parser takes an item for a range of bits. -/
theorem fits_iff
    {item : Nat × Nat}
    (bound : nmaskbits < 2 ^ 31) :
    Fits nmaskbits item ↔
      item.1 < 2 ^ 64 ∧ item.2 < 2 ^ 64 ∧
        item.1 % 2 ^ 32 ≤ item.2 % 2 ^ 32 ∧
        item.2 % 2 ^ 32 < nmaskbits := by
  rw [Fits, truncated, truncated, ulongMax]
  omega

/-- The parser takes valid items for what they are. -/
theorem Valid.fits
    {items : List (Nat × Nat)}
    (bound : nmaskbits < 2 ^ 31)
    (valid : Valid nmaskbits items) :
    ∀ item ∈ items,
      Fits nmaskbits item ∧ truncated item.1 = item.1 ∧
        truncated item.2 = item.2 := by
  intro item isMember
  obtain ⟨ordered, inside⟩ := valid item isMember
  have first : truncated item.1 = item.1 := truncated_of_lt (by omega)
  have last : truncated item.2 = item.2 := truncated_of_lt (by omega)
  refine ⟨?_, first, last⟩
  rw [Fits, first, last]
  exact ⟨ordered, inside⟩

/-- The bits of ranges that the parser takes for what they are. -/
theorem exists_truncated_iff
    {items : List (Nat × Nat)}
    {index : Nat}
    (same :
      ∀ item ∈ items,
        truncated item.1 = item.1 ∧ truncated item.2 = item.2) :
    (∃ item ∈ items,
        truncated item.1 ≤ index ∧ index ≤ truncated item.2) ↔
      ∃ item ∈ items, item.1 ≤ index ∧ index ≤ item.2 := by
  apply exists_congr
  intro item
  apply and_congr_right
  intro isMember
  obtain ⟨first, last⟩ := same item isMember
  rw [first, last]

/--
`bitmap_parselist` accepts exactly the valid lists, if and only if it does not
read a number that is too large for an `unsigned int` as a valid one.
-/
theorem bitmapParselist_meetsList_iff
    (bound : nmaskbits < 2 ^ 31)
    (mapped : memory.longs.Mapped maskp (bitsToLongs nmaskbits))
    (stores : memory.chars.Stores bp (text ++ [0]))
    (nonzero : ∀ c ∈ text, c ≠ 0) :
    MeetsList memory maskp nmaskbits bp text ↔
      ¬ReadsLargeNumber nmaskbits text := by
  have verdict := ensures_bitmapParselist bound mapped stores nonzero
  constructor
  · intro meets readsLarge
    obtain ⟨items, isItems, allFit, item, isMember, large⟩ := readsLarge
    obtain ⟨status, after, returned, accepted, -⟩ := meets
    obtain ⟨-, -, ⟨isZero, -⟩ | ⟨-, none⟩⟩ :=
      verdict.of_returns returned
    · obtain ⟨others, isOthers, valid⟩ := accepted.mp isZero
      rw [← isItems.unique isOthers] at valid
      have inside := valid item isMember
      omega
    · exact none items isItems fun item isMember =>
        (fits_iff bound).mpr (allFit item isMember)
  · intro notLarge
    refine verdict.weaken ?_
    intro status after outcome
    obtain ⟨-, -, ⟨rfl, items, isItems, allFit, union⟩ |
      ⟨isError, none⟩⟩ := outcome
    · have small :
          ∀ item ∈ items, item.1 < 2 ^ 32 ∧ item.2 < 2 ^ 32 := by
        intro item isMember
        by_contra large
        exact notLarge ⟨items, isItems,
          fun item isMember => (fits_iff bound).mp (allFit item isMember),
          item, isMember, by omega⟩
      have same :
          ∀ item ∈ items,
            truncated item.1 = item.1 ∧ truncated item.2 = item.2 :=
        fun item isMember =>
          ⟨truncated_of_lt (small item isMember).1,
            truncated_of_lt (small item isMember).2⟩
      have valid : Valid nmaskbits items := by
        intro item isMember
        have fits := allFit item isMember
        rwa [Fits, (same item isMember).1, (same item isMember).2] at fits
      refine ⟨iff_of_true rfl ⟨items, isItems, valid⟩, ?_⟩
      intro others isOthers _ index inside
      rw [← isItems.unique isOthers, union index inside,
        exists_truncated_iff same]
    · have rejected :
          ∀ items, Items text items → ¬Valid nmaskbits items :=
        fun items isItems valid =>
          none items isItems fun item isMember =>
            (valid.fits bound item isMember).1
      refine ⟨iff_of_false ?_ ?_, ?_⟩
      · rcases isError with rfl | rfl <;> decide
      · intro accepted
        obtain ⟨items, isItems, valid⟩ := accepted
        exact rejected items isItems valid
      · intro items isItems valid
        exact absurd valid (rejected items isItems)

/-- A memory with a bitmap of one word and a string. -/
def listMemory (text : List Byte) : CMemory where
  longs := .ofList [0]
  chars := .ofList (text ++ [0])

/-- The list `1-3` is accepted. -/
theorem bitmapParselist_meetsList_of_sample :
    MeetsList (listMemory [ascii '1', ascii '-', ascii '3']) 0 8 0
      [ascii '1', ascii '-', ascii '3'] := by
  refine (bitmapParselist_meetsList_iff (by decide)
    (Region.mapped_ofList (by decide)) (Region.stores_ofList _)
    (by decide)).mpr ?_
  intro readsLarge
  obtain ⟨items, isItems, -, item, isMember, large⟩ := readsLarge
  have sample :
      Items [ascii '1', ascii '-', ascii '3'] [(1, 3)] :=
    items_iff.mpr ⟨(1, 3), [], by decide, .inl ⟨.inl rfl, rfl⟩⟩
  rw [isItems.unique sample, List.mem_singleton] at isMember
  subst isMember
  exact absurd large (by decide)

/-- The list `4294967296` is accepted for a bitmap of eight bits. -/
theorem bitmapParselist_accepts_large_number :
    (bitmapParselist 0 8 0).Ensures
        (listMemory ("4294967296".toList.map ascii))
        (fun status _ => status = 0) ∧
      Items ("4294967296".toList.map ascii) [(4294967296, 4294967296)] ∧
      ¬MeetsList (listMemory ("4294967296".toList.map ascii)) 0 8 0
        ("4294967296".toList.map ascii) := by
  have accepted :
      (bitmapParselist 0 8 0).Ensures
        (listMemory ("4294967296".toList.map ascii))
        (fun status _ => status = 0) := by
    apply Ensures.of_exec 15
    decide +kernel
  have isItems :
      Items ("4294967296".toList.map ascii)
        [(4294967296, 4294967296)] :=
    items_iff.mpr ⟨(4294967296, 4294967296), [], by decide +kernel,
      .inl ⟨.inl rfl, rfl⟩⟩
  refine ⟨accepted, isItems, ?_⟩
  intro meets
  obtain ⟨status, after, returned, isZero⟩ := accepted
  obtain ⟨items, others, valid⟩ :=
    ((meets.of_returns returned).1).mp isZero
  rw [← isItems.unique others] at valid
  have inside := valid (4294967296, 4294967296) (by simp)
  omega

end Accepts

end LibKern.Bitmap
