import LibKern.Memory
import LibKern.Traversal

namespace LibKern.Lists

/-!
# The doubly linked list functions

This module transcribes `include/list.h`.  Every access fails on an unmapped
address, in particular on `NULL`.
-/

open Program

/-- `struct list_head`. -/
structure ListHead where
  next : Word
  prev : Word
  deriving Repr, DecidableEq

/-- The memory of `struct list_head` objects. -/
abbrev ListMemory := Memory Word ListHead

/-- `node->next`. -/
def next (node : Word) : Program ListMemory Word :=
  reads fun memory => (memory.cell node).map ListHead.next

/-- `node->prev`. -/
def prev (node : Word) : Program ListMemory Word :=
  reads fun memory => (memory.cell node).map ListHead.prev

/-- Replace the pointer to the next node. -/
def ListHead.withNext (value : Word) (node : ListHead) : ListHead :=
  { node with next := value }

/-- Replace the pointer to the previous node. -/
def ListHead.withPrev (value : Word) (node : ListHead) : ListHead :=
  { node with prev := value }

/-- Rewrite a node. -/
def store
    (node : Word)
    (change : ListHead → ListHead) :
    Program ListMemory Unit :=
  updates fun memory =>
    (memory.cell node).map fun _ => memory.modify node change

/-- Assignment to `node->next`. -/
def setNext (node value : Word) : Program ListMemory Unit :=
  store node (ListHead.withNext value)

/-- Assignment to `node->prev`. -/
def setPrev (node value : Word) : Program ListMemory Unit :=
  store node (ListHead.withPrev value)

/-- `INIT_LIST_HEAD(list)`. -/
def initListHead (list : Word) : Program ListMemory Unit := do
  setNext list list
  setPrev list list

/-- `__list_add(new, prev, next)`. -/
def listAddBetween (new prev next : Word) : Program ListMemory Unit := do
  setPrev next new
  setNext new next
  setPrev new prev
  setNext prev new

/-- `__list_del(prev, next)`. -/
def listDelBetween (prev next : Word) : Program ListMemory Unit := do
  setPrev next prev
  setNext prev next

/-- `__list_splice(list, prev, next)`. -/
def listSpliceBetween
    (list prev next : Word) :
    Program ListMemory Unit := do
  let first ← Lists.next list
  let last ← Lists.prev list
  setPrev first prev
  setNext prev first
  setNext last next
  setPrev next last

/-- `__list_cut_position(list, head, entry)`. -/
def listCutAt (list head entry : Word) : Program ListMemory Unit := do
  let newFirst ← next entry
  let first ← next head
  setNext list first
  let first ← next list
  setPrev first list
  setPrev list entry
  setNext entry list
  setNext head newFirst
  setPrev newFirst head

/-- `list_add(new, head)`. -/
def listAdd (new head : Word) : Program ListMemory Unit := do
  let first ← next head
  listAddBetween new head first

/-- `list_add_tail(new, head)`. -/
def listAddTail (new head : Word) : Program ListMemory Unit := do
  let last ← prev head
  listAddBetween new last head

/-- `__list_del(entry->prev, entry->next)`. -/
def listUnlink (entry : Word) : Program ListMemory Unit := do
  let before ← prev entry
  let following ← next entry
  listDelBetween before following

/-- `list_del(entry)`. -/
def listDel (entry : Word) : Program ListMemory Unit := do
  listUnlink entry
  setNext entry null
  setPrev entry null

/-- `list_del_init(entry)`. -/
def listDelInit (entry : Word) : Program ListMemory Unit := do
  listUnlink entry
  initListHead entry

/-- `list_replace(old, new)`. -/
def listReplace (old new : Word) : Program ListMemory Unit := do
  let following ← next old
  setNext new following
  let following ← next new
  setPrev following new
  let before ← prev old
  setPrev new before
  let before ← prev new
  setNext before new

/-- `list_replace_init(old, new)`. -/
def listReplaceInit (old new : Word) : Program ListMemory Unit := do
  listReplace old new
  initListHead old

/-- `list_move(list, head)`. -/
def listMove (list head : Word) : Program ListMemory Unit := do
  listUnlink list
  listAdd list head

/-- `list_move_tail(list, head)`. -/
def listMoveTail (list head : Word) : Program ListMemory Unit := do
  listUnlink list
  listAddTail list head

/-- `list_is_last(list, head)`. -/
def listIsLast (list head : Word) : Program ListMemory Bool := do
  let following ← next list
  pure (following = head)

/-- `list_empty(head)`. -/
def listEmpty (head : Word) : Program ListMemory Bool := do
  let first ← next head
  pure (first = head)

/-- `list_empty_careful(head)`. -/
def listEmptyCareful (head : Word) : Program ListMemory Bool := do
  let first ← next head
  if first = head then do
    let last ← prev head
    pure (first = last)
  else
    pure false

/-- `list_rotate_left(head)`. -/
def listRotateLeft (head : Word) : Program ListMemory Unit := do
  let isEmpty ← listEmpty head
  onlyIf (isEmpty = false) (do
    let first ← next head
    listMoveTail first head)

/-- `list_is_singular(head)`. -/
def listIsSingular (head : Word) : Program ListMemory Bool := do
  let isEmpty ← listEmpty head
  if isEmpty then
    pure false
  else do
    let first ← next head
    let last ← prev head
    pure (first = last)

/-- The loop of `list_length`; the length is a `size_t`. -/
def listLengthFrom
    (head : Word) :
    Word × BitVec 64 → Program ListMemory (Flow (Word × BitVec 64) (BitVec 64))
  | (pos, length) =>
      if pos ≠ head then do
        let following ← next pos
        pure (.next (following, length + 1))
      else
        pure (.done length)

/-- `list_length(head)`. -/
def listLength (head : Word) : Program ListMemory (BitVec 64) := do
  let first ← next head
  loop (listLengthFrom head) (first, 0)

/-- `list_cut_position(list, head, entry)`. -/
def listCutPosition
    (list head entry : Word) :
    Program ListMemory Unit := do
  let isEmpty ← listEmpty head
  if isEmpty then
    pure ()
  else do
    let isSingular ← listIsSingular head
    let first ← next head
    if isSingular = true ∧ first ≠ entry ∧ head ≠ entry then
      pure ()
    else if entry = head then
      initListHead list
    else
      listCutAt list head entry

/-- `list_splice(list, head)`. -/
def listSplice (list head : Word) : Program ListMemory Unit := do
  let isEmpty ← listEmpty list
  onlyIf (isEmpty = false) (do
    let first ← next head
    listSpliceBetween list head first)

/-- `list_splice_tail(list, head)`. -/
def listSpliceTail (list head : Word) : Program ListMemory Unit := do
  let isEmpty ← listEmpty list
  onlyIf (isEmpty = false) (do
    let last ← prev head
    listSpliceBetween list last head)

/-- `list_splice_init(list, head)`. -/
def listSpliceInit (list head : Word) : Program ListMemory Unit := do
  let isEmpty ← listEmpty list
  onlyIf (isEmpty = false) (do
    let first ← next head
    listSpliceBetween list head first
    initListHead list)

/-- `list_splice_tail_init(list, head)`. -/
def listSpliceTailInit (list head : Word) : Program ListMemory Unit := do
  let isEmpty ← listEmpty list
  onlyIf (isEmpty = false) (do
    let last ← prev head
    listSpliceBetween list last head
    initListHead list)

section Loops

variable {β : Type}

/-- `list_for_each_safe(pos, n, head)`, with a value. -/
def listForEachSafe
    (head : Word)
    (body : Word → β → Program ListMemory β)
    (start : β) :
    Program ListMemory β :=
  eachAhead (next head) next (· = head) body start

/-- `list_for_each_prev_safe(pos, n, head)`, with a value. -/
def listForEachPrevSafe
    (head : Word)
    (body : Word → β → Program ListMemory β)
    (start : β) :
    Program ListMemory β :=
  eachAhead (prev head) prev (· = head) body start

/-- `list_entry(ptr, type, member)`, where `member` is an offset. -/
def listEntry (ptr member : Word) : Word :=
  ptr - member

/-- `list_entry(node->next, type, member)`. -/
def nextEntry (node member : Word) : Program ListMemory Word := do
  let following ← next node
  pure (listEntry following member)

/-- `list_for_each_entry_safe(pos, n, head, member)`, with a value. -/
def listForEachEntrySafe
    (head member : Word)
    (body : Word → β → Program ListMemory β)
    (start : β) :
    Program ListMemory β :=
  eachAhead (nextEntry head member)
    (fun pos => nextEntry (pos + member) member)
    (fun pos => pos + member = head) body start

/-- `list_entry(node->prev, type, member)`. -/
def prevEntry (node member : Word) : Program ListMemory Word := do
  let before ← prev node
  pure (listEntry before member)

/-- `list_for_each_entry_safe_continue(pos, n, head, member)`, with a value. -/
def listForEachEntrySafeContinue
    (pos head member : Word)
    (body : Word → β → Program ListMemory β)
    (start : β) :
    Program ListMemory β :=
  eachAhead (nextEntry (pos + member) member)
    (fun pos => nextEntry (pos + member) member)
    (fun pos => pos + member = head) body start

/-- `list_for_each_entry_safe_from(pos, n, head, member)`, with a value. -/
def listForEachEntrySafeFrom
    (pos head member : Word)
    (body : Word → β → Program ListMemory β)
    (start : β) :
    Program ListMemory β :=
  eachAhead (pure pos) (fun pos => nextEntry (pos + member) member)
    (fun pos => pos + member = head) body start

/-- `list_for_each_entry_safe_reverse(pos, n, head, member)`, with a value. -/
def listForEachEntrySafeReverse
    (head member : Word)
    (body : Word → β → Program ListMemory β)
    (start : β) :
    Program ListMemory β :=
  eachAhead (prevEntry head member)
    (fun pos => prevEntry (pos + member) member)
    (fun pos => pos + member = head) body start

end Loops

end LibKern.Lists
