import LibKern.CMemory

namespace LibKern

/-!
# Printing into a buffer

A text is printed by several calls of `snprintf`, each of them at the end of
what was printed before.  A buffer that is too short holds the beginning of the
text, if every call is told the true remaining space.
-/

open Program

section Store

variable {memory : CMemory} {address : Int} {text : List Byte}

/-- What writing several bytes leaves alone. -/
theorem permits_storeChars :
    (storeChars address text).Permits memory fun _ after =>
      after.longs = memory.longs ∧ after.calls = memory.calls ∧
        memory.chars.SameOutside after.chars address text.length := by
  induction text generalizing address memory with
  | nil =>
      rw [storeChars, permits_pure]
      exact ⟨rfl, rfl, .refl⟩
  | cons c rest inductionHypothesis =>
      rw [storeChars, permits_bind, storeChar, permits_updates]
      intro between written
      obtain ⟨_, -, rfl⟩ := Option.map_eq_some_iff.mp written
      refine inductionHypothesis.weaken ?_
      intro _ after result
      obtain ⟨sameLongs, sameCalls, same⟩ := result
      refine ⟨sameLongs, sameCalls, ?_⟩
      intro other outside
      rw [List.length_cons] at outside
      rw [same other (by omega), Region.write_cell_of_ne _ (by omega)]

/-- Writing several bytes. -/
theorem ensures_storeChars
    (mapped : memory.chars.Mapped address text.length) :
    (storeChars address text).Ensures memory fun _ after =>
      after.chars.Stores address text := by
  induction text generalizing address memory with
  | nil =>
      rw [storeChars, ensures_pure]
      simp [Region.Stores]
  | cons c rest inductionHypothesis =>
      have atFirst := mapped 0 (by simp)
      have restMapped :
          (memory.chars.write address c).Mapped (address + 1)
            rest.length := by
        apply Region.Mapped.write
        have bound : 1 + rest.length ≤ (c :: rest).length := by
          rw [List.length_cons]
          omega
        simpa using mapped.drop bound
      rw [Nat.cast_zero, add_zero] at atFirst
      rw [storeChars, ensures_bind, ensures_storeChar]
      refine ⟨atFirst, ?_⟩
      refine ((@inductionHypothesis ⟨_, memory.chars.write address c, _⟩ _
        restMapped).both permits_storeChars).weaken ?_
      intro _ after written
      obtain ⟨stores, -, -, same⟩ := written
      have single : after.chars.Stores address [c] := by
        apply same.stores (by simp)
        exact Region.stores_singleton (Region.write_cell_same _ _ _)
      exact single.append (by simpa using stores)

end Store

section Print

variable {before memory : CMemory}
variable {buf : Int}
variable {buflen size : Nat}
variable {printed text : List Byte}

/-- What a call of `snprintf` does, whatever its size is. -/
theorem permits_snprintf
    {dst : Int} :
    (snprintf dst size text).Permits memory fun written after =>
      written = .ofNat 32 text.length ∧
        after.longs = memory.longs ∧
        after.calls = memory.calls ++ [(dst, size)] ∧
        memory.chars.SameOutside after.chars dst (text.length + 1) := by
  rw [snprintf, permits_bind, permits_updates]
  intro _ logged
  obtain rfl := Option.some.inj logged
  rw [onlyIf, permits_bind, permits_ite]
  split
  · refine permits_storeChars.weaken ?_
    intro _ after result
    obtain ⟨sameLongs, sameCalls, same⟩ := result
    rw [permits_pure]
    refine ⟨rfl, sameLongs, sameCalls, ?_⟩
    intro other outside
    apply same
    rw [List.length_append, List.length_singleton, List.length_take]
    omega
  · rw [permits_pure, permits_pure]
    exact ⟨rfl, rfl, rfl, .refl⟩

/--
The buffer holds the beginning of the text that was printed so far, as much of
it as there is room for.
-/
structure Printed
    (before : CMemory)
    (buf : Int)
    (buflen : Nat)
    (text : List Byte)
    (memory : CMemory) : Prop where
  sameLongs : memory.longs = before.longs
  sameOutside : before.chars.SameOutside memory.chars buf buflen
  mapped : memory.chars.Mapped buf buflen
  stores : memory.chars.Stores buf (text.take (buflen - 1))
  terminated :
    text ≠ [] →
    memory.chars.cell (buf + (min text.length (buflen - 1) : Nat)) = some 0

/-- Nothing was printed. -/
theorem Printed.nil
    (mapped : memory.chars.Mapped buf buflen) :
    Printed memory buf buflen [] memory where
  sameLongs := rfl
  sameOutside := .refl
  mapped := mapped
  stores := by simp [Region.Stores]
  terminated := by simp

/-- The beginning of the text is in the buffer as a string. -/
theorem Printed.truncatedString
    (isPrinted : Printed before buf buflen text memory)
    (nonempty : text ≠ []) :
    memory.chars.Stores buf (text.take (buflen - 1) ++ [0]) := by
  have terminated := isPrinted.terminated nonempty
  rw [Nat.min_comm, ← List.length_take] at terminated
  exact isPrinted.stores.append (Region.stores_singleton terminated)

/-- A text that fits is in the buffer as a string. -/
theorem Printed.string
    (isPrinted : Printed before buf buflen text memory)
    (nonempty : text ≠ [])
    (fits : text.length < buflen) :
    memory.chars.Stores buf (text ++ [0]) := by
  have string := isPrinted.truncatedString nonempty
  rwa [List.take_of_length_le (by omega)] at string

/--
The size of a call of `snprintf` is the remaining space, or there is enough
space anyway.
-/
def Roomy
    (buflen size : Nat)
    (printed text : List Byte) : Prop :=
  printed.length ≤ buflen ∧ size = buflen - printed.length ∨
    printed.length + text.length < buflen ∧ text.length < size

/-- `snprintf` appends as much of a text as there is room for. -/
theorem Printed.ensures_snprintf
    (isPrinted : Printed before buf buflen printed memory)
    (positive : 1 ≤ buflen)
    (roomy : Roomy buflen size printed text) :
    (snprintf (buf + printed.length) size text).Ensures memory
      fun written after =>
        written = .ofNat 32 text.length ∧
          after.calls = memory.calls ++ [(buf + printed.length, size)] ∧
          Printed before buf buflen (printed ++ text) after := by
  rcases Nat.eq_zero_or_pos size with isZero | isPositive
  · have full : printed.length = buflen := by
      rcases roomy with ⟨_, isSize⟩ | ⟨_, isLess⟩
      · omega
      · omega
    have nonempty : printed ≠ [] :=
      List.length_pos_iff.mp (by omega)
    rw [snprintf, ensures_bind, ensures_updates]
    refine ⟨_, rfl, ?_⟩
    rw [ensures_bind, ensures_onlyIf_of_not (by omega), ensures_pure]
    refine ⟨rfl, rfl, ?_⟩
    exact
      { sameLongs := isPrinted.sameLongs
        sameOutside := isPrinted.sameOutside
        mapped := isPrinted.mapped
        stores := by
          rw [List.take_append_of_le_length (by omega)]
          exact isPrinted.stores
        terminated := by
          intro _
          have terminated := isPrinted.terminated nonempty
          rw [Nat.min_eq_right (by omega)] at terminated
          rw [Nat.min_eq_right (by rw [List.length_append]; omega)]
          exact terminated }
  · have bound : printed.length ≤ buflen - 1 := by
      rcases roomy with ⟨_, isSize⟩ | ⟨fits, _⟩
      · omega
      · omega
    have written :
        text.take (size - 1) =
          text.take (buflen - 1 - printed.length) := by
      rcases roomy with ⟨_, isSize⟩ | ⟨fits, isLess⟩
      · congr 1
        omega
      · rw [List.take_of_length_le (by omega),
          List.take_of_length_le (by omega)]
    have length :
        (text.take (size - 1)).length =
          min text.length (buflen - 1 - printed.length) := by
      rw [written, List.length_take, Nat.min_comm]
    have room :
        printed.length + (text.take (size - 1) ++ [0]).length ≤
          buflen := by
      rw [List.length_append, List.length_singleton]
      omega
    have mapped :
        memory.chars.Mapped (buf + printed.length)
          (text.take (size - 1) ++ [0]).length :=
      isPrinted.mapped.drop room
    have storesPrinted : memory.chars.Stores buf printed := by
      have stores := isPrinted.stores
      rwa [List.take_of_length_le bound] at stores
    rw [snprintf, ensures_bind, ensures_updates]
    refine ⟨_, rfl, ?_⟩
    rw [ensures_bind, ensures_onlyIf_of (by omega)]
    refine ((@ensures_storeChars
      ⟨_, memory.chars, memory.calls ++ [(buf + printed.length, size)]⟩ _ _
      mapped).both permits_storeChars).weaken ?_
    intro _ after result
    obtain ⟨stores, sameLongs, sameCalls, same⟩ := result
    have appended :
        after.chars.Stores buf
          ((printed ++ text).take (buflen - 1) ++ [0]) := by
      rw [List.take_append, List.take_of_length_le bound, ← written,
        List.append_assoc]
      exact (same.stores le_rfl storesPrinted).append stores
    rw [ensures_pure]
    refine ⟨rfl, sameCalls, ?_⟩
    exact
      { sameLongs := sameLongs.trans isPrinted.sameLongs
        sameOutside := isPrinted.sameOutside.trans (same.within room)
        mapped := same.mapped stores.mapped isPrinted.mapped
        stores := appended.of_append
        terminated := by
          intro _
          have isLast := appended.of_append_right.head
          rwa [List.length_take, Nat.min_comm] at isLast }

/-- The size of a call of `snprintf` is the space that remains. -/
def TrueSize (buf : Int) (buflen : Nat) (call : Int × Nat) : Prop :=
  (call.2 : Int) = buf + buflen - call.1

/-- Every call of `snprintf` since then was told the space that remained. -/
def TrueCalls
    (buf : Int)
    (buflen : Nat)
    (before after : CMemory) : Prop :=
  ∃ made,
    after.calls = before.calls ++ made ∧
      ∀ call ∈ made, TrueSize buf buflen call

/-- Some call of `snprintf` since then was told something else. -/
def WrongCall
    (buf : Int)
    (buflen : Nat)
    (before after : CMemory) : Prop :=
  ∃ made,
    after.calls = before.calls ++ made ∧
      ∃ call ∈ made, ¬TrueSize buf buflen call

section Calls

variable {between after : CMemory} {call : Int × Nat}

theorem TrueCalls.trans
    (first : TrueCalls buf buflen before between)
    (second : TrueCalls buf buflen between after) :
    TrueCalls buf buflen before after := by
  obtain ⟨made, isMade, areTrue⟩ := first
  obtain ⟨more, isMore, moreTrue⟩ := second
  refine ⟨made ++ more, by rw [isMore, isMade, List.append_assoc], ?_⟩
  intro call isCall
  rcases List.mem_append.mp isCall with inMade | inMore
  · exact areTrue call inMade
  · exact moreTrue call inMore

theorem TrueCalls.single
    (isMade : after.calls = before.calls ++ [call])
    (isTrue : TrueSize buf buflen call) :
    TrueCalls buf buflen before after :=
  ⟨[call], isMade, by simpa using isTrue⟩

theorem TrueCalls.refl : TrueCalls buf buflen memory memory :=
  ⟨[], by simp, by simp⟩

/-- A wrong call is not a true one. -/
theorem WrongCall.not_trueCalls
    (wrong : WrongCall buf buflen before after) :
    ¬TrueCalls buf buflen before after := by
  intro areTrue
  obtain ⟨made, isMade, call, isCall, notTrue⟩ := wrong
  obtain ⟨others, isOthers, allTrue⟩ := areTrue
  have same : made = others :=
    List.append_cancel_left (isMade.symm.trans isOthers)
  rw [same] at isCall
  exact notTrue (allTrue call isCall)

/-- Other calls, before or after, do not make a call right. -/
theorem WrongCall.extend
    {made : List (Int × Nat)}
    (isMade : between.calls = before.calls ++ made)
    (wrong : WrongCall buf buflen between after) :
    WrongCall buf buflen before after := by
  obtain ⟨more, isMore, call, isCall, notTrue⟩ := wrong
  exact ⟨made ++ more, by rw [isMore, isMade, List.append_assoc], call,
    List.mem_append_right _ isCall, notTrue⟩

theorem WrongCall.of_first
    {made : List (Int × Nat)}
    (isFirst : between.calls = before.calls ++ [call])
    (isMade : after.calls = between.calls ++ made)
    (notTrue : ¬TrueSize buf buflen call) :
    WrongCall buf buflen before after :=
  ⟨call :: made, by rw [isMade, isFirst, List.append_assoc]; rfl, call,
    by simp, notTrue⟩

end Calls

end Print

end LibKern
