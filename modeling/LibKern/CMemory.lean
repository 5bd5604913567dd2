import LibKern.CText
import LibKern.Program
import LibKern.Region

namespace LibKern

/-!
# Memory of C and functions of its library

The memory holds objects of type `unsigned long` and of type `char`.  Every
access to an unmapped address fails.  `memset`, `snprintf` and `strtoul` follow
ISO C99; the formatted text of `snprintf` is passed as an argument, and
`strtoul` is only modelled for strings that start with a decimal digit.  The
calls of `snprintf` are recorded, since a size that is too large need not show
in the objects.
-/

open Program

/-- The objects in memory, and the calls of `snprintf` with their sizes. -/
@[ext] structure CMemory where
  longs : Region (BitVec 64)
  chars : Region Byte
  calls : List (Int × Nat) := []

/-- Read an `unsigned long`. -/
def loadLong (address : Int) : Program CMemory (BitVec 64) :=
  reads fun memory => memory.longs.cell address

/-- Write an `unsigned long`. -/
def storeLong
    (address : Int)
    (value : BitVec 64) :
    Program CMemory Unit :=
  updates fun memory =>
    (memory.longs.cell address).map fun _ =>
      { memory with longs := memory.longs.write address value }

/-- Read a `char`. -/
def loadChar (address : Int) : Program CMemory Byte :=
  reads fun memory => memory.chars.cell address

/-- Write a `char`. -/
def storeChar (address : Int) (value : Byte) : Program CMemory Unit :=
  updates fun memory =>
    (memory.chars.cell address).map fun _ =>
      { memory with chars := memory.chars.write address value }

/-- `memset(dst, 0, count * sizeof(unsigned long))`. -/
def clearLongs (dst : Int) (count : Nat) : Program CMemory Unit :=
  countUp count fun index => storeLong (dst + index) 0

/-- Write several bytes. -/
def storeChars (dst : Int) : List Byte → Program CMemory Unit
  | [] => pure ()
  | c :: rest => do
      storeChar dst c
      storeChars (dst + 1) rest

/-- `snprintf(dst, size, ...)` for arguments that format as this text. -/
def snprintf
    (dst : Int)
    (size : Nat)
    (text : List Byte) :
    Program CMemory (BitVec 32) := do
  updates fun memory =>
    some { memory with calls := memory.calls ++ [(dst, size)] }
  onlyIf (size ≠ 0) (storeChars dst (text.take (size - 1) ++ [0]))
  pure (.ofNat 32 text.length)

/-- `ULONG_MAX`. -/
def ulongMax : Nat :=
  2 ^ 64 - 1

/-- The value of a decimal digit. -/
def decimalDigit (c : Byte) : Nat :=
  c.toNat - 48

/-- The loop of `strtoul` over the digits. -/
def strtoulDigits :
    Int × Nat → Program CMemory (Flow (Int × Nat) (BitVec 64 × Int))
  | (address, value) => do
      let c ← loadChar address
      if isdigit c then
        pure (.next (address + 1, value * 10 + decimalDigit c))
      else
        pure (.done (.ofNat 64 (min value ulongMax), address))

/-- `strtoul(address, &end, 10)` at a decimal digit; returns `end` as well. -/
def strtoul (address : Int) : Program CMemory (BitVec 64 × Int) :=
  loop strtoulDigits (address, 0)

/-- A small number is not changed by its conversion to `int`. -/
theorem toInt_ofNat_of_lt
    {number : Nat}
    (bound : number < 2 ^ 31) :
    (BitVec.ofNat 32 number).toInt = number := by
  have value : (BitVec.ofNat 32 number).toNat = number := by
    rw [BitVec.toNat_ofNat]
    omega
  rw [BitVec.toInt_eq_toNat_of_lt (by omega), value]

/-- A number of type `int` that is not negative. -/
theorem toNat_of_toInt
    {value : BitVec 32}
    {number : Nat}
    (isNumber : value.toInt = number) :
    value.toNat = number := by
  have bound := value.isLt
  rw [BitVec.toInt_eq_toNat_cond] at isNumber
  split at isNumber <;> omega

section Rules

variable {memory : CMemory} {address : Int}

@[simp] theorem ensures_loadLong
    {post : BitVec 64 → CMemory → Prop} :
    (loadLong address).Ensures memory post ↔
      ∃ value, memory.longs.cell address = some value ∧
        post value memory := by
  simp [loadLong]

@[simp] theorem ensures_storeLong
    {value : BitVec 64}
    {post : Unit → CMemory → Prop} :
    (storeLong address value).Ensures memory post ↔
      (∃ content, memory.longs.cell address = some content) ∧
        post ()
          { memory with longs := memory.longs.write address value } := by
  cases mapped : memory.longs.cell address <;> simp [storeLong, mapped]

@[simp] theorem ensures_loadChar
    {post : Byte → CMemory → Prop} :
    (loadChar address).Ensures memory post ↔
      ∃ value, memory.chars.cell address = some value ∧
        post value memory := by
  simp [loadChar]

@[simp] theorem ensures_storeChar
    {value : Byte}
    {post : Unit → CMemory → Prop} :
    (storeChar address value).Ensures memory post ↔
      (∃ content, memory.chars.cell address = some content) ∧
        post ()
          { memory with chars := memory.chars.write address value } := by
  cases mapped : memory.chars.cell address <;> simp [storeChar, mapped]

/-- Clearing an array. -/
theorem ensures_clearLongs
    {count : Nat}
    (mapped : memory.longs.Mapped address count) :
    (clearLongs address count).Ensures memory fun _ after =>
      after.chars = memory.chars ∧
        after.longs.Mapped address count ∧
        memory.longs.SameOutside after.longs address count ∧
        ∀ index < count, after.longs.cell (address + index) = some 0 := by
  rw [clearLongs]
  refine ensures_countUp
    (fun done (after : CMemory) =>
      after.chars = memory.chars ∧
        after.longs.Mapped address count ∧
        memory.longs.SameOutside after.longs address count ∧
        ∀ index < done, after.longs.cell (address + index) = some 0)
    ⟨rfl, mapped, .refl, by simp⟩ ?_
  intro index below before holds
  obtain ⟨sameChars, stillMapped, same, done⟩ := holds
  rw [ensures_storeLong]
  refine ⟨stillMapped index below, sameChars, stillMapped.write _ _,
    same.trans (.write below _), ?_⟩
  intro other bound
  by_cases isLast : other = index
  · simp [isLast]
  · rw [Region.write_cell_of_ne _ (by omega)]
    exact done other (by omega)

/-- `strtoul` reads the digits up to another character. -/
theorem ensures_strtoul
    {digits : List Byte}
    {next : Byte}
    (stores : memory.chars.Stores address (digits ++ [next]))
    (isDigit : ∀ c ∈ digits, isdigit c = true)
    (ends : isdigit next = false) :
    (strtoul address).Ensures memory fun result after =>
      after = memory ∧
        result =
          (.ofNat 64 (min (numeralValue 10 decimalDigit digits) ulongMax),
            address + digits.length) := by
  have scans
      (digits : List Byte)
      (address : Int)
      (value : Nat)
      (stores : memory.chars.Stores address (digits ++ [next]))
      (isDigit : ∀ c ∈ digits, isdigit c = true) :
      (loop strtoulDigits (address, value)).Ensures memory
        fun result after =>
          after = memory ∧
            result =
              (.ofNat 64
                (min
                  (digits.foldl
                    (fun value c => value * 10 + decimalDigit c) value)
                  ulongMax),
                address + digits.length) := by
    induction digits generalizing address value with
    | nil =>
        rw [ensures_loop, strtoulDigits, ensures_bind, ensures_loadChar]
        refine ⟨next, stores.head, ?_⟩
        rw [if_neg (by simp [ends]), ensures_pure]
        simp
    | cons c rest inductionHypothesis =>
        rw [List.forall_mem_cons] at isDigit
        rw [ensures_loop, strtoulDigits, ensures_bind, ensures_loadChar]
        refine ⟨c, stores.head, ?_⟩
        rw [if_pos isDigit.1, ensures_pure]
        refine (inductionHypothesis _ _ stores.tail isDigit.2).weaken ?_
        intro result after scanned
        obtain ⟨rfl, rfl⟩ := scanned
        refine ⟨rfl, ?_⟩
        rw [List.foldl_cons, List.length_cons, Prod.mk.injEq]
        exact ⟨rfl, by omega⟩
  exact scans digits address 0 stores isDigit

end Rules

end LibKern
