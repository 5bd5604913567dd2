import LibKern.HlistSource
import LibKern.JhashSource
import LibKern.Traversal

namespace LibKern.Htables

/-!
# The hash table

This module transcribes `include/htable.h`.  Lists, entries, tables, bit vectors
and keys are memories of their own.  The results of `malloc` are parameters of
the functions that call it.  The field `hash` of an entry is never used and is
left out.
-/

open Program Hlists Jhash

/-- `struct htable_entry` without its list node. -/
structure HtableEntry where
  key : Word
  len : Word
  deriving Repr, DecidableEq

/-- `struct htable`. -/
structure Htable where
  bucks : Word
  size : Word
  count : Word
  bitvect : Word
  deriving Repr, DecidableEq

/-- The memory of hash tables. -/
structure HtableMemory where
  lists : HlistMemory
  entries : Memory Word HtableEntry
  tables : Memory Word Htable
  bits : Memory Word Byte
  keys : ByteMemory

/-- Run a program on the lists. -/
def onLists {α : Type} (program : Program HlistMemory α) :
    Program HtableMemory α :=
  program.zoom HtableMemory.lists fun lists memory =>
    { memory with lists := lists }

/-- Run a program on the keys. -/
def onKeys {α : Type} (program : Program ByteMemory α) :
    Program HtableMemory α :=
  program.zoom HtableMemory.keys fun keys memory =>
    { memory with keys := keys }

/-- Read a field of `*table`. -/
def field (project : Htable → Word) (table : Word) :
    Program HtableMemory Word :=
  reads fun memory => (memory.tables.cell table).map project

/-- Assign to fields of `*table`. -/
def setField (table : Word) (change : Htable → Htable) :
    Program HtableMemory Unit :=
  updates fun memory =>
    (memory.tables.cell table).map fun _ =>
      { memory with tables := memory.tables.modify table change }

/-- Read a field of `*entry`. -/
def entryField (project : HtableEntry → Word) (entry : Word) :
    Program HtableMemory Word :=
  reads fun memory => (memory.entries.cell entry).map project

/-- Assign to fields of `*entry`. -/
def setEntryField (entry : Word) (change : HtableEntry → HtableEntry) :
    Program HtableMemory Unit :=
  updates fun memory =>
    (memory.entries.cell entry).map fun _ =>
      { memory with entries := memory.entries.modify entry change }

/-- Read a byte of a bit vector. -/
def loadBits (address : Word) : Program HtableMemory Byte :=
  reads fun memory => memory.bits.cell address

/-- Assign to a byte of a bit vector. -/
def storeBits (address : Word) (value : Byte) :
    Program HtableMemory Unit :=
  updates fun memory =>
    (memory.bits.cell address).map fun _ =>
      { memory with bits := memory.bits.modify address fun _ => value }

/-- `assert(pointer)`. -/
def assertPointer (pointer : Word) : Program HtableMemory Unit :=
  updates fun memory => if pointer = null then none else some memory

/-- `BLOOM_BIT_LENGTH`. -/
def bloomBitLength : Nat :=
  8

/-- `BITS_PER_BYTE`. -/
def bitsPerByte : Nat :=
  8

/-- The number of bytes of a bit vector. -/
def bloomBytes : Nat :=
  2 ^ bloomBitLength / bitsPerByte

/-- `bloom_init(table->bitvect)`, where `malloc` returned `bitvect`. -/
def bloomInit (table bitvect : Word) : Program HtableMemory Unit := do
  setField table fun fields => { fields with bitvect := bitvect }
  assertPointer bitvect
  countUp bloomBytes fun index =>
    storeBits (bitvect + BitVec.ofNat 64 index) 0

/-- `hash & (uint32_t)((1ULL << BLOOM_BIT_LENGTH) - 1)`. -/
def bloomIndex (hash : BitVec 32) : BitVec 32 :=
  hash &&& BitVec.ofNat 32 (2 ^ bloomBitLength - 1)

/-- `&bitvect[idx / BITS_PER_BYTE]`. -/
def bloomByte (bitvect : Word) (idx : BitVec 32) : Word :=
  bitvect + BitVec.ofNat 64 (idx.toNat / bitsPerByte)

/-- `1U << (idx % BITS_PER_BYTE)`. -/
def bloomMask (idx : BitVec 32) : BitVec 32 :=
  1#32 <<< (idx.toNat % bitsPerByte)

/-- `bloom_set(bitvect, hash)`. -/
def bloomSet (bitvect : Word) (hash : BitVec 32) :
    Program HtableMemory Unit := do
  let idx := bloomIndex hash
  let byte ← loadBits (bloomByte bitvect idx)
  storeBits (bloomByte bitvect idx)
    ((byte.setWidth 32 ||| bloomMask idx).setWidth 8)

/-- `bloom_test(bitvect, hash)`. -/
def bloomTest (bitvect : Word) (hash : BitVec 32) :
    Program HtableMemory Bool := do
  let idx := bloomIndex hash
  let byte ← loadBits (bloomByte bitvect idx)
  pure (byte.setWidth 32 &&& bloomMask idx ≠ 0)

/-- `&bucks[index]`. -/
def bucketAt (bucks index : Word) : Word :=
  bucks + 8 * index

/-- `htable_which_bucket(table, hash)`, as it is assigned to an `unsigned`. -/
def htableWhichBucket (size : Word) (hash : BitVec 32) : BitVec 32 :=
  (hash.setWidth 64 &&& (size - 1)).setWidth 32

/-- `++i` for an `int`, which is undefined if it overflows. -/
def increment (i : BitVec 32) : Program HtableMemory (BitVec 32) :=
  reads fun _ => if i = 0x7fffffff then none else some (i + 1)

/-- `for (int i = 0; i < table->size; ++i)`, with a value. -/
def forEachBucket
    {β : Type}
    (table : Word)
    (body : Word → β → Program HtableMemory β)
    (start : β) :
    Program HtableMemory β :=
  loop (fun vars : BitVec 32 × β => do
    let size ← field Htable.size table
    if vars.1.signExtend 64 < size then do
      let current ← body (vars.1.signExtend 64) vars.2
      let i ← increment vars.1
      pure (.next (i, current))
    else
      pure (.done vars.2)) (0, start)

/-- `INIT_HLIST_HEAD(&table->bucks[i])` for every bucket. -/
def initBuckets (table : Word) : Program HtableMemory Unit :=
  forEachBucket table (fun i _ => do
    let bucks ← field Htable.bucks table
    onLists (initHlistHead (bucketAt bucks i))) ()

/-- The part that `htable_init` and `htable_init_n` have in common. -/
def htableInitSize (table size bucks bitvect : Word) :
    Program HtableMemory Int :=
  if table = null then
    pure (-1)
  else do
    setField table fun fields => { fields with size := size }
    setField table fun fields => { fields with bucks := bucks }
    assertPointer bucks
    initBuckets table
    setField table fun fields => { fields with count := 0 }
    bloomInit table bitvect
    pure 0

/-- `HASH_NUM_BUCKETS`. -/
def hashNumBuckets : Word :=
  16

/-- `HASH_BUCKET_THRESH`. -/
def hashBucketThresh : Word :=
  10

/-- `htable_init(table)`. -/
def htableInit (table bucks bitvect : Word) : Program HtableMemory Int :=
  htableInitSize table hashNumBuckets bucks bitvect

/-- `n > 0 ? n : HASH_BUCKET_THRESH`. -/
def sizeFor (n : Word) : Word :=
  if n > 0 then n else hashBucketThresh

/-- `htable_init_n(table, n)`. -/
def htableInitN (table n bucks bitvect : Word) :
    Program HtableMemory Int :=
  htableInitSize table (sizeFor n) bucks bitvect

/-- The offset of `node` in `struct htable_entry`. -/
def nodeOffset : Word :=
  0

/-- `hlist_entry(ptr, struct htable_entry, node)`. -/
def hlistEntry (ptr : Word) : Word :=
  ptr - nodeOffset

/-- `&entry->node`. -/
def nodeOf (entry : Word) : Word :=
  entry + nodeOffset

/-- `INIT_HTABLE_ENTRY(entry, key, len)`. -/
def initHtableEntry (entry key len : Word) :
    Program HtableMemory Unit := do
  onLists (initHlistNode (nodeOf entry))
  setEntryField entry fun fields => { fields with key := key }
  setEntryField entry fun fields => { fields with len := len }

/-- `htable_add(table, entry, key, len)`. -/
def htableAdd (table entry key len : Word) :
    Program HtableMemory Unit := do
  initHtableEntry entry key len
  let hash ← onKeys (jhash key (len.setWidth 32) 0)
  let size ← field Htable.size table
  let buck := htableWhichBucket size hash
  let bucks ← field Htable.bucks table
  onLists (hlistAddHead (nodeOf entry)
    (bucketAt bucks (buck.setWidth 64)))
  let bitvect ← field Htable.bitvect table
  bloomSet bitvect hash
  setField table fun fields => { fields with count := fields.count + 1 }

/-- Read this number of bytes. -/
def readBytes (memory : ByteMemory) (address : Word) :
    Nat → Option (List Byte)
  | 0 => some []
  | count + 1 => do
      let byte ← memory.cell address
      let rest ← readBytes memory (address + 1) count
      some (byte :: rest)

/-- `memcmp(s1, s2, n) == 0`. -/
def memcmpEqual (s1 s2 n : Word) : Program ByteMemory Bool :=
  reads fun memory => do
    let left ← readBytes memory s1 n.toNat
    let right ← readBytes memory s2 n.toNat
    some (left = right)

/-- `e->len == len && memcmp(e->key, key, len) == 0`. -/
def hasKey (e key len : Word) : Program HtableMemory Bool := do
  let entryLen ← entryField HtableEntry.len e
  if entryLen = len then do
    let entryKey ← entryField HtableEntry.key e
    onKeys (memcmpEqual entryKey key len)
  else
    pure false

/-- The loop of `htable_find` from a list node on. -/
def findFrom (key len n : Word) : Program HtableMemory Word :=
  loop (fun n =>
    if n = null then
      pure (.done null)
    else do
      let e := hlistEntry n
      let found ← hasKey e key len
      if found then
        pure (.done e)
      else do
        let n ← onLists (next n)
        pure (.next n)) n

/-- `htable_find(h, key, len)`. -/
def htableFind (h key len : Word) : Program HtableMemory Word := do
  let hash ← onKeys (jhash key (len.setWidth 32) 0)
  let size ← field Htable.size h
  let buck := htableWhichBucket size hash
  let bitvect ← field Htable.bitvect h
  let present ← bloomTest bitvect hash
  if present then do
    let bucks ← field Htable.bucks h
    let empty ← onLists (hlistEmpty (bucketAt bucks (buck.setWidth 64)))
    if empty then
      pure null
    else do
      let bucks ← field Htable.bucks h
      let n ← onLists (first (bucketAt bucks (buck.setWidth 64)))
      findFrom key len n
  else
    pure null

/-- `htable_del_key(table, key, len)`. -/
def htableDelKey (table key len : Word) : Program HtableMemory Word := do
  let entry ← htableFind table key len
  if entry = null then
    pure null
  else do
    onLists (hlistDelInit (nodeOf entry))
    setField table fun fields => { fields with count := fields.count - 1 }
    pure entry

/-- `htable_del_entry(table, entry)`. -/
def htableDelEntry (table entry : Word) : Program HtableMemory Word := do
  let key ← entryField HtableEntry.key entry
  let len ← entryField HtableEntry.len entry
  htableDelKey table key len

/-- `hlist_entry(table->bucks[i].first, typeof(*pos), node)`. -/
def firstEntry (table i : Word) : Program HtableMemory Word := do
  let bucks ← field Htable.bucks table
  let node ← onLists (first (bucketAt bucks i))
  pure (hlistEntry node)

/-- `hlist_entry(pos->node.next, typeof(*pos), node)`. -/
def nextEntry (pos : Word) : Program HtableMemory Word := do
  let node ← onLists (next (nodeOf pos))
  pure (hlistEntry node)

/-- `htable_for_each(pos, table)`, with a value. -/
def htableForEach
    {β : Type}
    (table : Word)
    (body : Word → β → Program HtableMemory β)
    (start : β) :
    Program HtableMemory β :=
  forEachBucket table (fun i =>
    each (firstEntry table i) nextEntry (· = null) body) start

/-- `htable_for_each_safe(pos, n, table)`, with a value. -/
def htableForEachSafe
    {β : Type}
    (table : Word)
    (body : Word → β → Program HtableMemory β)
    (start : β) :
    Program HtableMemory β :=
  forEachBucket table (fun i =>
    eachSafe (firstEntry table i) nextEntry (· = null) body) start

end LibKern.Htables
