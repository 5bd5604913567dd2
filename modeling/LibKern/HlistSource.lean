import LibKern.Memory
import LibKern.Traversal

namespace LibKern.Hlists

/-!
# The lists with a single pointer head

This module transcribes `include/hlist.h`.  A node points back to the pointer
that points to it, which is `first` of a head or `next` of another node.  Every
access fails on an unmapped address, in particular on `NULL`.
-/

open Program

/-- A `struct hlist_node **`: `NULL`, `&head->first` or `&node->next`. -/
inductive Slot where
  | null
  | first (head : Word)
  | next (node : Word)
  deriving Repr, DecidableEq

/-- `struct hlist_node`. -/
structure HlistNode where
  next : Word
  pprev : Slot
  deriving Repr, DecidableEq

/-- The memory of heads, which have a field `first` only, and of nodes. -/
structure HlistMemory where
  heads : Memory Word Word
  nodes : Memory Word HlistNode

/-- `head->first`. -/
def first (head : Word) : Program HlistMemory Word :=
  reads fun memory => memory.heads.cell head

/-- `node->next`. -/
def next (node : Word) : Program HlistMemory Word :=
  reads fun memory => (memory.nodes.cell node).map HlistNode.next

/-- `node->pprev`. -/
def pprev (node : Word) : Program HlistMemory Slot :=
  reads fun memory => (memory.nodes.cell node).map HlistNode.pprev

/-- Rewrite a node. -/
def store
    (node : Word)
    (change : HlistNode → HlistNode) :
    Program HlistMemory Unit :=
  updates fun memory =>
    (memory.nodes.cell node).map fun _ =>
      { memory with nodes := memory.nodes.modify node change }

/-- Assignment to `head->first`. -/
def setFirst (head value : Word) : Program HlistMemory Unit :=
  updates fun memory =>
    (memory.heads.cell head).map fun _ =>
      { memory with heads := memory.heads.modify head fun _ => value }

/-- Assignment to `node->next`. -/
def setNext (node value : Word) : Program HlistMemory Unit :=
  store node fun content => { content with next := value }

/-- Assignment to `node->pprev`. -/
def setPprev (node : Word) (value : Slot) : Program HlistMemory Unit :=
  store node fun content => { content with pprev := value }

/-- Assignment to `*slot`. -/
def setSlot (slot : Slot) (value : Word) : Program HlistMemory Unit :=
  match slot with
  | .null => updates fun _ => none
  | .first head => setFirst head value
  | .next node => setNext node value

/-- `INIT_HLIST_HEAD(ptr)`. -/
def initHlistHead (ptr : Word) : Program HlistMemory Unit :=
  setFirst ptr null

/-- `INIT_HLIST_NODE(h)`. -/
def initHlistNode (h : Word) : Program HlistMemory Unit := do
  setNext h null
  setPprev h .null

/-- `hlist_unhashed(h)`. -/
def hlistUnhashed (h : Word) : Program HlistMemory Bool := do
  let slot ← pprev h
  pure (slot = .null)

/-- `hlist_empty(h)`. -/
def hlistEmpty (h : Word) : Program HlistMemory Bool := do
  let node ← first h
  pure (node = null)

/-- `__hlist_del(n)`. -/
def hlistDelNode (n : Word) : Program HlistMemory Unit := do
  let following ← next n
  let slot ← pprev n
  setSlot slot following
  onlyIf (following ≠ null) (setPprev following slot)

/-- `hlist_del(n)`. -/
def hlistDel (n : Word) : Program HlistMemory Unit := do
  hlistDelNode n
  setNext n null
  setPprev n .null

/-- `hlist_del_init(n)`. -/
def hlistDelInit (n : Word) : Program HlistMemory Unit := do
  let unhashed ← hlistUnhashed n
  onlyIf (unhashed = false) (do
    hlistDelNode n
    initHlistNode n)

/-- `hlist_add_head(n, h)`. -/
def hlistAddHead (n h : Word) : Program HlistMemory Unit := do
  let following ← first h
  setNext n following
  onlyIf (following ≠ null) (setPprev following (.next n))
  setFirst h n
  setPprev n (.first h)

/-- `hlist_add_before(n, next)`. -/
def hlistAddBefore (n next : Word) : Program HlistMemory Unit := do
  let slot ← pprev next
  setPprev n slot
  setNext n next
  setPprev next (.next n)
  let slot ← pprev n
  setSlot slot n

/-- `hlist_add_after(n, next)`; the new node is `next`. -/
def hlistAddAfter (n next : Word) : Program HlistMemory Unit := do
  let following ← Hlists.next n
  setNext next following
  setNext n next
  setPprev next (.next n)
  let following ← Hlists.next next
  onlyIf (following ≠ null) (setPprev following (.next next))

/-- `hlist_move_list(old, new)`. -/
def hlistMoveList (old new : Word) : Program HlistMemory Unit := do
  let node ← first old
  setFirst new node
  let node ← first new
  onlyIf (node ≠ null) (setPprev node (.first new))
  setFirst old null

/-- `hlist_for_each_safe(pos, n, head)`, with a value. -/
def hlistForEachSafe
    {β : Type}
    (head : Word)
    (body : Word → β → Program HlistMemory β)
    (start : β) :
    Program HlistMemory β :=
  eachSafe (first head) next (· = null) body start

/-- `hlist_entry(ptr, type, member)`; the member is at this offset. -/
def hlistEntry (ptr member : Word) : Word :=
  ptr - member

end LibKern.Hlists
