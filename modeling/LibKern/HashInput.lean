import LibKern.HashSource
import LibKern.JhashWords

namespace LibKern.Hash

/-!
# What `hash_internal` reads

The end pointer of `hash_internal` is computed from the first byte of the buffer
instead of from its address.  So the loop makes one iteration for each byte of
the buffer only if the buffer happens to start at an address that is equal to
its first byte.
-/

open Program Jhash

/-- The hash that `hash_internal` should return. -/
def foldHash (h : BitVec 32) (bytes : List Byte) : BitVec 32 :=
  bytes.foldl (fun h byte => (h ^^^ byte.setWidth 32) * 0x9e3779b9) h

/-- The addresses of the first bytes of a buffer. -/
def bufferAddresses (data : Word) (count : Nat) : List Word :=
  (List.range count).map fun index => data + BitVec.ofNat 64 index

/-- A machine that is about to call `hash_internal`. -/
def machineFor (memory : ByteMemory) : HashMachine :=
  ⟨memory, [], 0⟩

/--
`hash_internal` returns the hash of the bytes of the buffer, has read these bytes
and no others, and its loop has made one iteration for each of them.
-/
def HashesInput
    (memory : ByteMemory)
    (data : Word)
    (bytes : List Byte) : Prop :=
  (hashInternal data (BitVec.ofNat 32 bytes.length)).Ensures
    (machineFor memory) fun hash after =>
      hash = (foldHash 0xfeedbeef bytes).setWidth 64 ∧
        (∀ address,
          address ∈ after.addresses ↔
            address ∈ bufferAddresses data bytes.length) ∧
        after.iterations = bytes.length

/-- The address of the first byte and the ones behind it. -/
theorem bufferAddresses_succ (data : Word) (count : Nat) :
    bufferAddresses data (count + 1) =
      data :: bufferAddresses (data + 1) count := by
  rw [bufferAddresses, List.range_succ_eq_map, List.map_cons,
    List.map_map, bufferAddresses]
  congr 1
  · exact BitVec.add_zero data
  · apply List.map_congr_left
    intro index _
    rw [Function.comp_apply, Nat.succ_eq_one_add, BitVec.ofNat_add,
      BitVec.add_assoc]
    rfl

section Loop

variable {machine : HashMachine}
variable {data e : Word}
variable {vars : HashVars}
variable {bytes : List Byte}

@[simp] theorem ensures_loadChar
    {address : Word}
    {post : Byte → HashMachine → Prop} :
    (loadChar address).Ensures machine post ↔
      ∃ byte,
        machine.memory.cell address = some byte ∧
          post byte
            { machine with addresses := machine.addresses ++ [address] } := by
  simp [loadChar]

@[simp] theorem ensures_countIteration
    {post : Unit → HashMachine → Prop} :
    countIteration.Ensures machine post ↔
      post ()
        { machine with iterations := machine.iterations + 1 } := by
  simp [countIteration]

/-- The pointer behind one that is below the end pointer. -/
theorem toNat_add_one
    {p : Word}
    (below : p.toNat < e.toNat) :
    (p + 1).toNat = p.toNat + 1 := by
  have one : (1 : Word).toNat = 1 := rfl
  have bound := e.isLt
  rw [BitVec.toNat_add, one]
  omega

/-- The loop reads the bytes up to the end pointer. -/
theorem ensures_hashLoop
    (keyAt : KeyAt machine.memory vars.p bytes)
    (isEnd : vars.p.toNat + bytes.length = e.toNat) :
    (loop (hashStep e) vars).Ensures machine fun h after =>
      h = foldHash vars.h bytes ∧
        after.addresses =
          machine.addresses ++ bufferAddresses vars.p bytes.length ∧
        after.iterations = machine.iterations + bytes.length := by
  induction bytes generalizing vars machine with
  | nil =>
      rw [ensures_loop, hashStep, if_neg, ensures_pure]
      · exact ⟨rfl, by simp [bufferAddresses], rfl⟩
      · rw [BitVec.lt_def]
        simp only [List.length_nil] at isEnd
        omega
  | cons byte rest inductionHypothesis =>
      rw [List.length_cons] at isEnd
      have goesOn : vars.p < e := by
        rw [BitVec.lt_def]
        omega
      have isNext := toNat_add_one (BitVec.lt_def.mp goesOn)
      have atByte : machine.memory.cell vars.p = some byte := by
        have first := keyAt 0 (by simp)
        rwa [BitVec.add_zero] at first
      rw [ensures_loop, hashStep, if_pos goesOn]
      simp only [ensures_bind, ensures_countIteration, ensures_loadChar,
        ensures_pure]
      refine ⟨byte, atByte, ?_⟩
      refine (inductionHypothesis (keyAt.drop 1) ?_).weaken ?_
      · dsimp only
        omega
      · intro h after result
        obtain ⟨isHash, isRead, isCount⟩ := result
        refine ⟨isHash, ?_, ?_⟩
        · rw [isRead, List.length_cons, bufferAddresses_succ]
          simp
        · rw [isCount, List.length_cons]
          dsimp only
          omega

/-- If the loop returns, it has made an iteration up to the end pointer. -/
theorem permits_hashLoop :
    (loop (hashStep e) vars).Permits machine fun _ after =>
      after.iterations =
          machine.iterations + (e.toNat - vars.p.toNat) ∧
        ∀ address ∈ machine.addresses, address ∈ after.addresses := by
  refine permits_loop
    (fun current state =>
      state.iterations + (e.toNat - current.p.toNat) =
          machine.iterations + (e.toNat - vars.p.toNat) ∧
        ∀ address ∈ machine.addresses, address ∈ state.addresses)
    ?_ ⟨rfl, fun _ isRead => isRead⟩
  intro current state holds
  obtain ⟨isCount, isRead⟩ := holds
  rw [hashStep]
  split
  · rename_i goesOn
    rw [BitVec.lt_def] at goesOn
    have isNext := toNat_add_one goesOn
    simp only [countIteration, loadChar, permits_bind, permits_updates,
      permits_reads, permits_pure, Option.some.injEq, forall_eq']
    intro byte _
    refine ⟨?_, ?_⟩
    · omega
    · intro address isBefore
      exact List.mem_append_left _ (isRead address isBefore)
  · rename_i atEnd
    rw [BitVec.lt_def] at atEnd
    rw [permits_pure]
    exact ⟨by omega, isRead⟩

end Loop

section Input

variable {memory : ByteMemory}
variable {data : Word}
variable {bytes : List Byte}

/--
The buffer starts at the address that is equal to its first byte, and the sum
of this byte and the length is a number of type `unsigned int`.
-/
def StartsAtFirstByte (data : Word) (bytes : List Byte) : Prop :=
  ∃ first ∈ bytes.head?,
    data.toNat = first.toNat ∧ first.toNat + bytes.length < 2 ^ 32

/-- The end pointer that is computed from the first byte. -/
theorem toNat_end
    {first : Byte}
    (short : bytes.length < 2 ^ 32) :
    ((first.setWidth 32 + BitVec.ofNat 32 bytes.length).setWidth 64 :
        Word).toNat =
      (first.toNat + bytes.length) % 2 ^ 32 := by
  have bound := first.isLt
  rw [BitVec.toNat_setWidth, BitVec.toNat_add, BitVec.toNat_setWidth,
    BitVec.toNat_ofNat]
  omega

/-- A buffer that is hashed starts at the address of its first byte. -/
theorem HashesInput.startsAtFirstByte
    (keyAt : KeyAt memory data bytes)
    (short : bytes.length < 2 ^ 32)
    (hashes : HashesInput memory data bytes) :
    StartsAtFirstByte data bytes := by
  rw [HashesInput, hashInternal, ensures_bind, ensures_loadChar] at hashes
  obtain ⟨first, atFirst, hashes⟩ := hashes
  rw [ensures_bind] at hashes
  obtain ⟨h, after, -, result, isCount, isRead⟩ :=
    hashes.both permits_hashLoop
  rw [ensures_pure] at result
  obtain ⟨-, sameAddresses, isLength⟩ := result
  have readFirst : data ∈ bufferAddresses data bytes.length := by
    rw [← sameAddresses]
    apply isRead
    simp [machineFor]
  cases bytes with
  | nil =>
      exact absurd readFirst (by simp [bufferAddresses])
  | cons byte rest =>
      have isFirst : byte = first := by
        have atIndex := keyAt 0 (by simp)
        rw [BitVec.add_zero] at atIndex
        exact Option.some.inj (atIndex.symm.trans atFirst)
      subst isFirst
      refine ⟨byte, rfl, ?_⟩
      rw [isLength, toNat_end short] at isCount
      have start : (machineFor memory).iterations = 0 := rfl
      have positive : 0 < (byte :: rest).length := by simp
      dsimp only at isCount
      omega

/-- A buffer that starts at the address of its first byte is hashed. -/
theorem StartsAtFirstByte.hashesInput
    (startsAt : StartsAtFirstByte data bytes)
    (keyAt : KeyAt memory data bytes) :
    HashesInput memory data bytes := by
  obtain ⟨first, isHead, sameAddress, fits⟩ := startsAt
  have positive : 0 < bytes.length := by
    rw [List.length_pos_iff]
    intro isEmpty
    simp [isEmpty] at isHead
  have atFirst : memory.cell data = some first := by
    have atIndex := keyAt 0 positive
    rwa [BitVec.add_zero, ← List.head?_eq_getElem?, isHead] at atIndex
  have isEnd :
      data.toNat + bytes.length =
        ((first.setWidth 32 + BitVec.ofNat 32 bytes.length).setWidth 64 :
          Word).toNat := by
    rw [toNat_end (by omega), Nat.mod_eq_of_lt fits, sameAddress]
  rw [HashesInput, hashInternal, ensures_bind, ensures_loadChar]
  refine ⟨first, atFirst, ?_⟩
  rw [ensures_bind]
  refine (ensures_hashLoop keyAt isEnd).weaken ?_
  intro h after result
  obtain ⟨rfl, isRead, isCount⟩ := result
  refine ensures_pure.mpr ⟨rfl, ?_, ?_⟩
  · intro address
    rw [isRead]
    obtain ⟨rest, isRest⟩ := Nat.exists_eq_succ_of_ne_zero positive.ne'
    rw [isRest, Nat.succ_eq_add_one, bufferAddresses_succ]
    simp [machineFor]
  · rw [isCount]
    exact Nat.zero_add _

/--
`hash_internal` hashes exactly its input if and only if the buffer starts at the
address that is equal to its first byte.
-/
theorem hashesInput_iff_startsAtFirstByte
    (keyAt : KeyAt memory data bytes)
    (short : bytes.length < 2 ^ 32) :
    HashesInput memory data bytes ↔ StartsAtFirstByte data bytes := by
  constructor
  · intro hashes
    exact hashes.startsAtFirstByte keyAt short
  · intro startsAt
    exact startsAt.hashesInput keyAt

/-- A buffer at address 16 whose first byte is 16. -/
theorem hashesInput_iff_startsAtFirstByte_of_sample :
    HashesInput (valuesAt 16 1 [16, 1, 2]) 16 [16, 1, 2] := by
  have keyAt : KeyAt (valuesAt 16 1 [16, 1, 2]) 16 [16, 1, 2] :=
    keyAt_valuesAt [16, 1, 2] (by decide) (by decide)
  rw [hashesInput_iff_startsAtFirstByte keyAt (by decide)]
  exact ⟨16, rfl, by decide, by decide⟩

/-- A buffer with the letters `abc` at an ordinary address is not hashed. -/
theorem not_hashesInput_abc :
    ¬HashesInput (valuesAt 0x601040 1 [97, 98, 99]) 0x601040
      [97, 98, 99] := by
  intro hashes
  have keyAt :
      KeyAt (valuesAt 0x601040 1 [97, 98, 99]) 0x601040 [97, 98, 99] :=
    keyAt_valuesAt [97, 98, 99] (by decide) (by decide)
  obtain ⟨first, isHead, sameAddress, -⟩ :=
    hashes.startsAtFirstByte keyAt (by decide)
  have isFirst : (97 : Byte) = first := Option.some.inj isHead
  rw [← isFirst] at sameAddress
  exact absurd sameAddress (by decide)

end Input

end LibKern.Hash
