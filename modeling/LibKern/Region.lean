import Mathlib.Data.Option.Basic

namespace LibKern

/-!
# Arrays in memory

A region maps some addresses to the elements stored there.  An array is a run
of consecutive addresses, and an access outside of all arrays is an access to
an unmapped address.  An array of 64-bit words is also read as an array of
bits.
-/

/-- A partial map from addresses to elements. -/
@[ext] structure Region (γ : Type) where
  cell : Int → Option γ

namespace Region

variable {γ : Type}

/-- Change one element. -/
def write
    (region : Region γ)
    (address : Int)
    (value : γ) : Region γ where
  cell other := if other = address then some value else region.cell other

/-- An array at the address zero. -/
def ofList (items : List γ) : Region γ where
  cell address := if 0 ≤ address then items[address.toNat]? else none

/-- All elements of this array can be accessed. -/
def Mapped
    (region : Region γ)
    (base : Int)
    (count : Nat) : Prop :=
  ∀ index : Nat, index < count →
    ∃ value, region.cell (base + index) = some value

/-- The array starts with these elements. -/
def Stores
    (region : Region γ)
    (base : Int)
    (items : List γ) : Prop :=
  ∀ (index : Nat) (item : γ),
    items[index]? = some item →
    region.cell (base + index) = some item

/-- The two regions agree outside of an array. -/
def SameOutside
    (region after : Region γ)
    (base : Int)
    (count : Nat) : Prop :=
  ∀ address : Int,
    address < base ∨ base + count ≤ address →
    after.cell address = region.cell address

theorem write_cell
    (region : Region γ)
    (address other : Int)
    (value : γ) :
    (region.write address value).cell other =
      if other = address then some value else region.cell other :=
  rfl

@[simp] theorem write_cell_same
    (region : Region γ)
    (address : Int)
    (value : γ) :
    (region.write address value).cell address = some value := by
  simp [write_cell]

theorem write_cell_of_ne
    (region : Region γ)
    {address other : Int}
    (different : other ≠ address)
    (value : γ) :
    (region.write address value).cell other = region.cell other := by
  simp [write_cell, different]

@[simp] theorem write_write
    (region : Region γ)
    (address : Int)
    (first second : γ) :
    (region.write address first).write address second =
      region.write address second := by
  ext other : 2
  by_cases same : other = address <;> simp [write_cell, same]

namespace Mapped

variable {region : Region γ} {base : Int} {count : Nat}

theorem write
    (mapped : region.Mapped base count)
    (address : Int)
    (value : γ) :
    (region.write address value).Mapped base count := by
  intro index below
  by_cases same : base + index = address
  · exact ⟨value, by simp [same]⟩
  · obtain ⟨content, atIndex⟩ := mapped index below
    exact ⟨content, by simp [write_cell, same, atIndex]⟩

/-- A part of an array. -/
theorem drop
    (mapped : region.Mapped base count)
    {offset length : Nat}
    (bound : offset + length ≤ count) :
    region.Mapped (base + offset) length := by
  intro index below
  obtain ⟨value, atIndex⟩ := mapped (offset + index) (by omega)
  refine ⟨value, ?_⟩
  rw [← atIndex]
  congr 1
  omega

theorem mono
    (mapped : region.Mapped base count)
    {fewer : Nat}
    (bound : fewer ≤ count) :
    region.Mapped base fewer :=
  fun index below => mapped index (by omega)

end Mapped

theorem stores_ofList (items : List γ) :
    (ofList items).Stores 0 items := by
  intro index item atIndex
  simpa [ofList] using atIndex

theorem mapped_ofList
    {items : List γ}
    {count : Nat}
    (bound : count ≤ items.length) :
    (ofList items).Mapped 0 count := by
  intro index below
  refine ⟨items[index], ?_⟩
  simp [ofList]

/-- The first part of an array. -/
theorem Stores.of_append
    {region : Region γ}
    {base : Int}
    {first second : List γ}
    (stores : region.Stores base (first ++ second)) :
    region.Stores base first := by
  intro index item atIndex
  apply stores
  have below : index < first.length :=
    (List.getElem?_eq_some_iff.mp atIndex).1
  rw [List.getElem?_append_left below, atIndex]

/-- The second part of an array. -/
theorem Stores.of_append_right
    {region : Region γ}
    {base : Int}
    {first second : List γ}
    (stores : region.Stores base (first ++ second)) :
    region.Stores (base + first.length) second := by
  intro index item atIndex
  have stored := stores (first.length + index) item (by
    rw [List.getElem?_append_right (by omega), Nat.add_sub_cancel_left,
      atIndex])
  have same :
      base + ((first.length + index : Nat) : Int) =
        base + first.length + index := by
    omega
  rwa [same] at stored

/-- The first element of an array. -/
theorem Stores.head
    {region : Region γ}
    {base : Int}
    {item : γ}
    {rest : List γ}
    (stores : region.Stores base (item :: rest)) :
    region.cell base = some item := by
  simpa using stores 0 item rfl

/-- An array of one element. -/
theorem stores_singleton
    {region : Region γ}
    {base : Int}
    {item : γ}
    (atBase : region.cell base = some item) :
    region.Stores base [item] := by
  intro index other atIndex
  rcases index with _ | index
  · simpa [atBase] using atIndex
  · simp at atIndex

/-- An array without its first element. -/
theorem Stores.tail
    {region : Region γ}
    {base : Int}
    {item : γ}
    {rest : List γ}
    (stores : region.Stores base (item :: rest)) :
    region.Stores (base + 1) rest := by
  have parts : region.Stores base ([item] ++ rest) := stores
  simpa using parts.of_append_right

/-- Two adjacent parts of an array. -/
theorem Stores.append
    {region : Region γ}
    {base : Int}
    {first second : List γ}
    (storesFirst : region.Stores base first)
    (storesSecond : region.Stores (base + first.length) second) :
    region.Stores base (first ++ second) := by
  intro index item atIndex
  by_cases below : index < first.length
  · apply storesFirst
    rwa [List.getElem?_append_left below] at atIndex
  · rw [List.getElem?_append_right (by omega)] at atIndex
    have stored := storesSecond (index - first.length) item atIndex
    have same :
        base + first.length + ((index - first.length : Nat) : Int) =
          base + index := by
      omega
    rwa [same] at stored

/-- Stored elements can be accessed. -/
theorem Stores.mapped
    {region : Region γ}
    {base : Int}
    {items : List γ}
    (stores : region.Stores base items) :
    region.Mapped base items.length :=
  fun index below =>
    ⟨items[index], stores index items[index]
      (List.getElem?_eq_getElem below)⟩

namespace SameOutside

variable {region between after : Region γ} {base : Int} {count : Nat}

theorem refl : region.SameOutside region base count :=
  fun _ _ => rfl

theorem trans
    (first : region.SameOutside between base count)
    (second : between.SameOutside after base count) :
    region.SameOutside after base count :=
  fun address outside =>
    (second address outside).trans (first address outside)

theorem write
    {index : Nat}
    (below : index < count)
    (value : γ) :
    region.SameOutside (region.write (base + index) value) base count := by
  intro address outside
  apply write_cell_of_ne
  omega

/-- A change inside of a part of an array. -/
theorem within
    {offset length : Nat}
    (same : region.SameOutside after (base + offset) length)
    (bound : offset + length ≤ count) :
    region.SameOutside after base count := by
  intro address outside
  apply same
  omega

/-- What is stored before a changed array. -/
theorem stores
    (same : region.SameOutside after base count)
    {start : Int}
    {items : List γ}
    (before : start + items.length ≤ base)
    (isStored : region.Stores start items) :
    after.Stores start items := by
  intro index item atIndex
  have below : index < items.length :=
    (List.getElem?_eq_some_iff.mp atIndex).1
  rw [same _ (.inl (by omega))]
  exact isStored index item atIndex

/-- What can be accessed after a change of accessible elements. -/
theorem mapped
    (same : region.SameOutside after base count)
    (inside : after.Mapped base count)
    {start : Int}
    {length : Nat}
    (isMapped : region.Mapped start length) :
    after.Mapped start length := by
  intro index below
  by_cases outside :
      start + index < base ∨ base + count ≤ start + index
  · rw [same _ outside]
    exact isMapped index below
  · obtain ⟨value, atIndex⟩ :=
      inside (start + index - base).toNat (by omega)
    refine ⟨value, ?_⟩
    rw [← atIndex]
    congr 1
    omega

end SameOutside

section Bits

variable (region : Region (BitVec 64)) (base : Int)

/-- A bit of an array of words. -/
def bit (index : Nat) : Bool :=
  ((region.cell (base + (index / 64 : Nat))).getD 0).getLsbD (index % 64)

variable {region base}

/-- The bits of a word that can be accessed. -/
theorem bit_of_cell
    {word index : Nat}
    {value : BitVec 64}
    (atWord : region.cell (base + word) = some value)
    (inside : index / 64 = word) :
    region.bit base index = value.getLsbD (index % 64) := by
  simp [bit, inside, atWord]

/-- A bit of a word that can be accessed is a bit of the array. -/
theorem getLsbD_of_cell
    {word index : Nat}
    {value : BitVec 64}
    (atWord : region.cell (base + word) = some value)
    (inside : index < 64) :
    value.getLsbD index = region.bit base (word * 64 + index) := by
  rw [bit_of_cell atWord (by omega)]
  congr 1
  omega

/-- Changing a word changes its bits only. -/
theorem bit_write
    (word index : Nat)
    (value : BitVec 64) :
    (region.write (base + word) value).bit base index =
      if index / 64 = word then value.getLsbD (index % 64)
      else region.bit base index := by
  by_cases inside : index / 64 = word
  · simp [bit, inside]
  · have different : base + ((index / 64 : Nat) : Int) ≠ base + word := by
      omega
    rw [if_neg inside, bit, bit, write_cell_of_ne region different]

/-- The bits of an array only depend on its words. -/
theorem bit_congr
    {other : Region (BitVec 64)}
    {index : Nat}
    (same :
      other.cell (base + (index / 64 : Nat)) =
        region.cell (base + (index / 64 : Nat))) :
    other.bit base index = region.bit base index := by
  rw [bit, bit, same]

/-- The bits of an array from a word on. -/
theorem bit_drop
    (region : Region (BitVec 64))
    (base : Int)
    (word index : Nat) :
    region.bit (base + word) index =
      region.bit base (word * 64 + index) := by
  have quotient : (word * 64 + index) / 64 = word + index / 64 := by
    omega
  have remainder : (word * 64 + index) % 64 = index % 64 := by
    omega
  rw [bit, bit, quotient, remainder, Int.add_assoc, Int.natCast_add]

/-- A word is determined by its bits. -/
theorem cell_eq_of_bits
    {other : Region (BitVec 64)}
    {word count : Nat}
    (mapped : region.Mapped base count)
    (otherMapped : other.Mapped base count)
    (below : word < count)
    (same :
      ∀ index < count * 64, other.bit base index = region.bit base index) :
    other.cell (base + word) = region.cell (base + word) := by
  obtain ⟨value, atWord⟩ := mapped word below
  obtain ⟨otherValue, otherAtWord⟩ := otherMapped word below
  rw [atWord, otherAtWord, Option.some.injEq]
  apply BitVec.eq_of_getLsbD_eq
  intro position inWord
  have isWord : (word * 64 + position) / 64 = word := by
    omega
  have isBit : (word * 64 + position) % 64 = position := by
    omega
  have sameBit := same (word * 64 + position) (by omega)
  rw [bit_of_cell atWord isWord, bit_of_cell otherAtWord isWord,
    isBit] at sameBit
  exact sameBit

/-- Two regions that only may differ in an array with the same bits. -/
theorem eq_of_bits
    {other : Region (BitVec 64)}
    {count : Nat}
    (mapped : region.Mapped base count)
    (otherMapped : other.Mapped base count)
    (outside : region.SameOutside other base count)
    (same :
      ∀ index < count * 64,
        other.bit base index = region.bit base index) :
    other = region := by
  ext address : 2
  by_cases isOutside : address < base ∨ base + count ≤ address
  · exact outside address isOutside
  · obtain ⟨word, isWord⟩ :=
      Int.eq_ofNat_of_zero_le (by omega : 0 ≤ address - base)
    obtain rfl : address = base + word := by
      omega
    exact cell_eq_of_bits mapped otherMapped (by omega) same

end Bits

end Region

end LibKern
