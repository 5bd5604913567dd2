import LibKern.CText
import LibKern.Memory
import LibKern.Program

namespace LibKern.Jhash

/-!
# The Jenkins hash

This module transcribes the functions of `include/jhash.h`.  A key of `jhash` is
read byte by byte from a memory of bytes, and a key of `jhash2` from a memory of
words of 32 bits; reading what is not mapped fails.  The other functions take
one, two or three words as arguments.
-/

open Program

/-- The memory of keys. -/
abbrev ByteMemory := Memory Word Byte

/-- The variables `a`, `b` and `c`. -/
structure JhashState where
  a : BitVec 32
  b : BitVec 32
  c : BitVec 32
  deriving Repr, DecidableEq

/-- `rol32(word, shift)` of `include/bitops.h`. -/
def rol32 (word : BitVec 32) (shift : Nat) : BitVec 32 :=
  (word <<< shift) ||| (word >>> (32 - shift))

/-- `__jhash_mix(a, b, c)`. -/
def jhashMix (state : JhashState) : JhashState :=
  let ⟨a, b, c⟩ := state
  let a := a - c
  let a := a ^^^ rol32 c 4
  let c := c + b
  let b := b - a
  let b := b ^^^ rol32 a 6
  let a := a + c
  let c := c - b
  let c := c ^^^ rol32 b 8
  let b := b + a
  let a := a - c
  let a := a ^^^ rol32 c 16
  let c := c + b
  let b := b - a
  let b := b ^^^ rol32 a 19
  let a := a + c
  let c := c - b
  let c := c ^^^ rol32 b 4
  let b := b + a
  ⟨a, b, c⟩

/-- `__jhash_final(a, b, c)`. -/
def jhashFinal (state : JhashState) : JhashState :=
  let ⟨a, b, c⟩ := state
  let c := c ^^^ b
  let c := c - rol32 b 14
  let a := a ^^^ c
  let a := a - rol32 c 11
  let b := b ^^^ a
  let b := b - rol32 a 25
  let c := c ^^^ b
  let c := c - rol32 b 16
  let a := a ^^^ c
  let a := a - rol32 c 4
  let b := b ^^^ a
  let b := b - rol32 a 14
  let c := c ^^^ b
  let c := c - rol32 b 24
  ⟨a, b, c⟩

/-- `JHASH_INITVAL`. -/
def jhashInitval : BitVec 32 :=
  0xdeadbeef

/-- `k[index]` as a `uint32_t`. -/
def loadByte (k : Word) (index : Nat) : Program ByteMemory (BitVec 32) :=
  reads fun memory =>
    (memory.cell (k + BitVec.ofNat 64 index)).map (BitVec.setWidth 32)

/-- Four bytes from `k[index]` on, the lowest first. -/
def loadWord (k : Word) (index : Nat) : Program ByteMemory (BitVec 32) := do
  let lowest ← loadByte k index
  let second ← loadByte k (index + 1)
  let third ← loadByte k (index + 2)
  let highest ← loadByte k (index + 3)
  pure (lowest + (second <<< 8) + (third <<< 16) + (highest <<< 24))

/-- The variables of the loop of `jhash`. -/
structure JhashVars where
  state : JhashState
  length : BitVec 32
  k : Word

/-- One iteration of `while (length > 12)`. -/
def jhashBlock (vars : JhashVars) :
    Program ByteMemory (Flow JhashVars JhashVars) :=
  if vars.length > 12 then do
    let first ← loadWord vars.k 0
    let second ← loadWord vars.k 4
    let third ← loadWord vars.k 8
    let state := jhashMix
      ⟨vars.state.a + first, vars.state.b + second, vars.state.c + third⟩
    pure (.next ⟨state, vars.length - 12, vars.k + 12⟩)
  else
    pure (.done vars)

/--
`case label: value += (uint32_t)k[label - 1] << shift`, which is executed when
the switch jumps to this case or to a case before it.
-/
def fallInto
    (vars : JhashVars)
    (label shift : Nat)
    (value : BitVec 32) :
    Program ByteMemory (BitVec 32) :=
  if label ≤ vars.length.toNat then do
    let byte ← loadByte vars.k (label - 1)
    pure (value + (byte <<< shift))
  else
    pure value

/-- `switch (length)` of `jhash`. -/
def jhashLast (vars : JhashVars) : Program ByteMemory JhashState := do
  let c ← fallInto vars 12 24 vars.state.c
  let c ← fallInto vars 11 16 c
  let c ← fallInto vars 10 8 c
  let c ← fallInto vars 9 0 c
  let b ← fallInto vars 8 24 vars.state.b
  let b ← fallInto vars 7 16 b
  let b ← fallInto vars 6 8 b
  let b ← fallInto vars 5 0 b
  let a ← fallInto vars 4 24 vars.state.a
  let a ← fallInto vars 3 16 a
  let a ← fallInto vars 2 8 a
  let a ← fallInto vars 1 0 a
  if 1 ≤ vars.length.toNat then
    pure (jhashFinal ⟨a, b, c⟩)
  else
    pure ⟨a, b, c⟩

/-- The variables `a`, `b` and `c` when `jhash` returns. -/
def jhashEnd
    (key : Word)
    (length initval : BitVec 32) :
    Program ByteMemory JhashState := do
  let start := jhashInitval + length + initval
  let vars ← loop jhashBlock ⟨⟨start, start, start⟩, length, key⟩
  jhashLast vars

/-- `jhash(key, length, initval)`. -/
def jhash
    (key : Word)
    (length initval : BitVec 32) :
    Program ByteMemory (BitVec 32) := do
  let state ← jhashEnd key length initval
  pure state.c

section Words

/-- The memory of keys that are arrays of `uint32_t`. -/
abbrev WordMemory := Memory Word (BitVec 32)

/-- `k[index]` of an array of `uint32_t`. -/
def loadItem (k : Word) (index : Nat) : Program WordMemory (BitVec 32) :=
  reads fun memory => memory.cell (k + BitVec.ofNat 64 (4 * index))

/-- One iteration of `while (length > 3)`. -/
def jhash2Block (vars : JhashVars) :
    Program WordMemory (Flow JhashVars JhashVars) :=
  if vars.length > 3 then do
    let first ← loadItem vars.k 0
    let second ← loadItem vars.k 1
    let third ← loadItem vars.k 2
    let state := jhashMix
      ⟨vars.state.a + first, vars.state.b + second, vars.state.c + third⟩
    pure (.next ⟨state, vars.length - 3, vars.k + 12⟩)
  else
    pure (.done vars)

/-- `case label: value += k[label - 1]`, which also other cases fall into. -/
def fallIntoItem
    (vars : JhashVars)
    (label : Nat)
    (value : BitVec 32) :
    Program WordMemory (BitVec 32) :=
  if label ≤ vars.length.toNat then do
    let item ← loadItem vars.k (label - 1)
    pure (value + item)
  else
    pure value

/-- `switch (length)` of `jhash2`. -/
def jhash2Last (vars : JhashVars) : Program WordMemory JhashState := do
  let c ← fallIntoItem vars 3 vars.state.c
  let b ← fallIntoItem vars 2 vars.state.b
  let a ← fallIntoItem vars 1 vars.state.a
  if 1 ≤ vars.length.toNat then
    pure (jhashFinal ⟨a, b, c⟩)
  else
    pure ⟨a, b, c⟩

/-- The variables `a`, `b` and `c` when `jhash2` returns. -/
def jhash2End
    (k : Word)
    (length initval : BitVec 32) :
    Program WordMemory JhashState := do
  let start := jhashInitval + (length <<< 2) + initval
  let vars ← loop jhash2Block ⟨⟨start, start, start⟩, length, k⟩
  jhash2Last vars

/-- `jhash2(k, length, initval)`. -/
def jhash2
    (k : Word)
    (length initval : BitVec 32) :
    Program WordMemory (BitVec 32) := do
  let state ← jhash2End k length initval
  pure state.c

end Words

section FixedWords

/-- The variables `a`, `b` and `c` when `jhash_3words` returns. -/
def jhash3wordsEnd (a b c initval : BitVec 32) : JhashState :=
  let a := a + jhashInitval
  let b := b + jhashInitval
  let c := c + initval
  jhashFinal ⟨a, b, c⟩

/-- `jhash_3words(a, b, c, initval)`. -/
def jhash3words (a b c initval : BitVec 32) : BitVec 32 :=
  (jhash3wordsEnd a b c initval).c

/-- `jhash_2words(a, b, initval)`. -/
def jhash2words (a b initval : BitVec 32) : BitVec 32 :=
  jhash3words a b 0 initval

/-- `jhash_1word(a, initval)`. -/
def jhash1word (a initval : BitVec 32) : BitVec 32 :=
  jhash3words a 0 0 initval

end FixedWords

end LibKern.Jhash
