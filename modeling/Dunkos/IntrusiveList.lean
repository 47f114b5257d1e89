import Dunkos.Lib.Chain

/-! # Intrusive lists (`util/list.h`, `shared/list.c`)

A `struct list` is two sentinels `head`, `tail` and a cached `size`; a `struct list_elem` is a pair
of pointers stored inside the object that is on the list.  The functions are those of `list.c`, one
assignment of the source per assignment here, over any memory with these fields (`LinkMem`).
`unlink` is the body that `list_pop_back`, `list_pop_front` and `list_remove` share.

The memory of separate objects is `ListMem L N`: it maps every address of a list element to its
`prev` and its `next` and every list to its `size`, where `L` names the `struct list` objects and
`N` the objects of the node pool.  An address (`Elem`) is `NULL`, one of the two sentinels of a
list, or the `list_elem` of a node; distinct objects have distinct addresses.  Writing through
`NULL` is a write like any other: the kernel maps physical page `0`. -/

namespace Dunkos

open Linked

/-- A memory `M` with the list structures `L`, whose list elements have addresses `P`. -/
class LinkMem (M : Type) (L P : outParam Type) where
  null : P
  head : L → P
  tail : L → P
  prev : M → P → P
  next : M → P → P
  size : M → L → ℕ
  setPrev : M → P → P → M
  setNext : M → P → P → M
  setSize : M → L → ℕ → M

section code
open LinkMem

variable {M L P : Type} [LinkMem M L P]

def listSize (m : M) (li : L) : ℕ := size m li

def listEmpty (m : M) (li : L) : Bool := listSize m li == 0

def listInit (m : M) (li : L) : M :=
  let m := setPrev m (head M li) (null M)
  let m := setNext m (head M li) (tail M li)
  let m := setPrev m (tail M li) (head M li)
  let m := setNext m (tail M li) (null M)
  setSize m li 0

def listBegin (m : M) (li : L) : P := if listEmpty m li then tail M li else next m (head M li)

def listEnd (_ : M) (li : L) : P := tail M li

def listFront (m : M) (li : L) : P := if listEmpty m li then null M else next m (head M li)

def listBack (m : M) (li : L) : P := if listEmpty m li then null M else prev m (tail M li)

def listNext (m : M) (el : P) : P := next m el

def listPushBack (m : M) (li : L) (el : P) : M :=
  let m₁ :=
    if listEmpty m li then setNext (setPrev m el (head M li)) (head M li) el
    else setNext (setPrev m el (prev m (tail M li))) (prev m (tail M li)) el
  setSize (setNext (setPrev m₁ (tail M li) el) el (tail M li)) li (size m li + 1)

def listPushFront (m : M) (li : L) (el : P) : M :=
  let m₁ :=
    if listEmpty m li then setPrev (setNext m el (tail M li)) (tail M li) el
    else setPrev (setNext m el (next m (head M li))) (next m (head M li)) el
  setSize (setPrev (setNext m₁ (head M li) el) el (head M li)) li (size m li + 1)

/-- `ne = el->next; pr = el->prev; pr->next = ne; ne->prev = pr; li->size--;`. -/
def unlink (m : M) (li : L) (el : P) : M :=
  setSize (setPrev (setNext m (prev m el) (next m el)) (next m el) (prev m el)) li (size m li - 1)

def listPopBack (m : M) (li : L) : M × P :=
  if listEmpty m li then (m, null M) else (unlink m li (prev m (listEnd m li)), prev m (listEnd m li))

def listPopFront (m : M) (li : L) : M × P :=
  if listEmpty m li then (m, null M) else (unlink m li (listBegin m li), listBegin m li)

def listRemove (m : M) (li : L) (el : P) : M := if listEmpty m li then m else unlink m li el

end code

/-! ### Separate objects -/

/-- Addresses of a `struct list_elem`. -/
inductive Elem (L N : Type) where
  | null
  | head (li : L)
  | tail (li : L)
  | node (n : N)
deriving DecidableEq, Repr

namespace Elem
variable {L N : Type}

/-- The object an element is embedded in (`elem_value`), when it is embedded in one. -/
def node? : Elem L N → Option N
  | node n => some n
  | _ => none

@[simp] theorem node?_node (n : N) : (node n : Elem L N).node? = some n := rfl
@[simp] theorem node?_null : (null : Elem L N).node? = none := rfl
@[simp] theorem node?_head (li : L) : (head li : Elem L N).node? = none := rfl
@[simp] theorem node?_tail (li : L) : (tail li : Elem L N).node? = none := rfl

end Elem

/-- The fields of all `struct list_elem` and `struct list` objects. -/
structure ListMem (L N : Type) where
  prev : Elem L N → Elem L N
  next : Elem L N → Elem L N
  size : L → ℕ

variable {L N : Type}

namespace ListMem
variable [DecidableEq L] [DecidableEq N]

/-- `el->prev = v`. -/
def setPrev (m : ListMem L N) (el v : Elem L N) : ListMem L N :=
  { m with prev := Function.update m.prev el v }

/-- `el->next = v`. -/
def setNext (m : ListMem L N) (el v : Elem L N) : ListMem L N :=
  { m with next := Function.update m.next el v }

/-- `li->size = v`. -/
def setSize (m : ListMem L N) (li : L) (v : ℕ) : ListMem L N :=
  { m with size := Function.update m.size li v }

section
variable (m : ListMem L N) (el v : Elem L N) (li : L) (k : ℕ)

@[simp] theorem setPrev_prev : (m.setPrev el v).prev = Function.update m.prev el v := rfl
@[simp] theorem setPrev_next : (m.setPrev el v).next = m.next := rfl
@[simp] theorem setPrev_size : (m.setPrev el v).size = m.size := rfl
@[simp] theorem setNext_prev : (m.setNext el v).prev = m.prev := rfl
@[simp] theorem setNext_next : (m.setNext el v).next = Function.update m.next el v := rfl
@[simp] theorem setNext_size : (m.setNext el v).size = m.size := rfl
omit [DecidableEq N] in
@[simp] theorem setSize_prev : (m.setSize li k).prev = m.prev := rfl
omit [DecidableEq N] in
@[simp] theorem setSize_next : (m.setSize li k).next = m.next := rfl
omit [DecidableEq N] in
@[simp] theorem setSize_size : (m.setSize li k).size = Function.update m.size li k := rfl

end

instance : LinkMem (ListMem L N) L (Elem L N) where
  null := .null
  head := .head
  tail := .tail
  prev := ListMem.prev
  next := ListMem.next
  size := ListMem.size
  setPrev := ListMem.setPrev
  setNext := ListMem.setNext
  setSize := ListMem.setSize

@[simp] theorem null_eq : LinkMem.null (ListMem L N) = Elem.null := rfl
@[simp] theorem head_eq (li : L) : LinkMem.head (ListMem L N) li = Elem.head li := rfl
@[simp] theorem tail_eq (li : L) : LinkMem.tail (ListMem L N) li = Elem.tail li := rfl
@[simp] theorem prev_eq (m : ListMem L N) : LinkMem.prev m = m.prev := rfl
@[simp] theorem next_eq (m : ListMem L N) : LinkMem.next m = m.next := rfl
@[simp] theorem size_eq (m : ListMem L N) : LinkMem.size m = m.size := rfl
@[simp] theorem setPrev_eq (m : ListMem L N) : LinkMem.setPrev m = m.setPrev := rfl
@[simp] theorem setNext_eq (m : ListMem L N) : LinkMem.setNext m = m.setNext := rfl
@[simp] theorem setSize_eq (m : ListMem L N) : LinkMem.setSize m = m.setSize := rfl

end ListMem

/-! ### The sequence a list stands for -/

/-- The nodes met by following `next` from `list_begin`, at most `size` of them, and the pointer
at which the walk stops. -/
def forward [DecidableEq L] [DecidableEq N] (m : ListMem L N) (li : L) : List N × Elem L N :=
  follow m.next Elem.node? (m.size li) (listBegin m li)

/-- The nodes met by following `prev` from `list_end`, at most `size` of them, and the pointer at
which the walk stops. -/
def backward (m : ListMem L N) (li : L) : List N × Elem L N :=
  follow m.prev Elem.node? (m.size li) (m.prev (Elem.tail li))

/-- The cells of a list that holds `xs`: its sentinels around its nodes. -/
def cells (li : L) (xs : List N) : List (Elem L N) := Elem.head li :: (xs.map Elem.node ++ [Elem.tail li])

/-- The list `li` holds the sequence `xs`: the size is its length, no node occurs twice, and the
cells are linked both ways; only a zero-filled list has no links, and it is empty. -/
structure Holds (m : ListMem L N) (li : L) (xs : List N) : Prop where
  size : m.size li = xs.length
  nodup : xs.Nodup
  links : Chain m.next m.prev (cells li xs) ∨
    (xs = [] ∧ m.next (Elem.head li) = .null ∧ m.prev (Elem.tail li) = .null)

/-- The memory represents `σ`: every list holds its sequence and no node is on two lists. -/
structure Represents (m : ListMem L N) (σ : L → List N) : Prop where
  holds : ∀ li, Holds m li (σ li)
  disjoint : ∀ li li', li ≠ li' → ∀ n ∈ σ li, n ∉ σ li'

end Dunkos
