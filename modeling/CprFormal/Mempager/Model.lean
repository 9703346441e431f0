import CprFormal.Library.LinkedList
import CprFormal.Library.SizeT
import CprFormal.Strchar.Strcpy

/-!
# The page allocator of `mempager.c`

A pager holds pages of one size in a doubly linked list and hands out the bytes
behind their headers, first fit.  The heap keeps the page headers by address, the
data bytes, and the record of what `malloc` returned and what was freed.  Pointers
are addresses, `NULL` is `none`.
-/

namespace CprFormal.Mempager.Model

open CprFormal.Library CprFormal.Library.FlatMemory CprFormal.Library.LinkedList
open CprFormal.Strchar.Strlen CprFormal.Strchar.Strcpy
open Function (update)

/-- `sizeof(struct _mempage)` -/
def sizeofPage : Nat := 24

/-- `struct _mempage` -/
structure Mempage where
  next : Option Nat
  prev : Option Nat
  used : Nat

/-- `struct _mempager` -/
structure MempagerT where
  head : Option Nat
  tail : Option Nat
  free : Option Nat
  size : Nat
  limit : Nat
  count : Nat

structure Heap where
  page : Nat → Mempage
  bytes : Memory UInt8
  live : List Nat
  freed : List Nat

namespace Heap

/-- `malloc` has returned the block at `a`. -/
def malloc (heap : Heap) (a : Nat) : Heap := { heap with live := heap.live ++ [a] }

/-- `free(a)`; the header is lost. -/
def free (heap : Heap) (a : Nat) : Heap :=
  { heap with
    page := update heap.page a ⟨none, none, 0⟩
    live := heap.live.erase a
    freed := heap.freed ++ [a] }

def next (heap : Heap) (a : Nat) : Option Nat := (heap.page a).next

def prev (heap : Heap) (a : Nat) : Option Nat := (heap.page a).prev

def used (heap : Heap) (a : Nat) : Nat := (heap.page a).used

/-- `page->used += size` -/
def grow (heap : Heap) (a size : Nat) : Heap :=
  { heap with
    page := update heap.page a
      { heap.page a with used := SizeT.wrap (heap.used a + size) } }

end Heap

structure State where
  pager : MempagerT
  heap : Heap

/-- `pager_create` -/
def pagerCreate (pagesize limit : Nat) : MempagerT :=
  ⟨none, none, none, pagesize, limit, 0⟩

/-- The end of `pager_request`: the page becomes the last one. -/
def linkPage (pager : MempagerT) (heap : Heap) (a : Nat) : State :=
  let page :=
    match pager.tail with
    | some last => update heap.page last { heap.page last with next := some a }
    | none => heap.page
  let head :=
    match pager.tail with
    | some _ => pager.head
    | none => some a
  { pager := { pager with head := head, tail := some a }
    heap := { heap with page := update page a ⟨none, pager.tail, sizeofPage⟩ } }

/-- `pager_request` with the answer of `malloc` should it be asked. -/
def pagerRequest (s : State) (block : Option Nat) : State × Option Nat :=
  match s.pager.free with
  | some a => (linkPage { s.pager with free := s.heap.next a } s.heap a, some a)
  | none =>
      if s.pager.limit ≠ 0 ∧ s.pager.count ≥ s.pager.limit then (s, none)
      else
        match block with
        | none => (s, none)
        | some a =>
            (linkPage { s.pager with count := (s.pager.count + 1) % 2 ^ 32 } (s.heap.malloc a) a,
              some a)

/-- `page->used + size <= pager->size` -/
def fits (s : State) (size a : Nat) : Bool :=
  decide (SizeT.wrap (s.heap.used a + size) ≤ s.pager.size)

/-- `pager_alloc`; the outer `none` stands for a walk that does not end. -/
def pagerAlloc (s : State) (size : Nat) (block : Option Nat) : Option (State × Option Nat) :=
  if SizeT.wrap (size + sizeofPage) > s.pager.size then some (s, none)
  else
    (walk s.heap.next (fits s size) (s.heap.live.length + 1) s.pager.head).map fun page =>
      match page with
      | some a => (⟨s.pager, s.heap.grow a size⟩, some (a + s.heap.used a))
      | none =>
          match pagerRequest s block with
          | (s, none) => (s, none)
          | (s, some a) => (⟨s.pager, s.heap.grow a size⟩, some (a + sizeofPage))

/-- The size `pager_strdup` asks for. -/
def strdupSize (s : State) (str : Option CString) : Nat :=
  let limit := SizeT.sub (SizeT.sub s.pager.size sizeofPage) 1
  match str with
  | none => 1
  | some str => SizeT.wrap (cprStrlen str.char limit + 1)

/-- `pager_strdup`; `cpr_strcpy` does nothing with `NULL`. -/
def pagerStrdup (s : State) (str : Option CString) (block : Option Nat) :
    Option (State × Option Nat) :=
  let size := strdupSize s str
  (pagerAlloc s size block).map fun allocated =>
    match allocated, str with
    | (s, some out), some str =>
        (⟨s.pager, { s.heap with bytes := cprStrcpy s.heap.bytes out str size }⟩, some out)
    | allocated, _ => allocated

/-- The two loops of `pager_reset`. -/
def freeLoop : Nat → Option Nat → Heap → Option Heap
  | 0, _, _ => none
  | _ + 1, none, heap => some heap
  | fuel + 1, some a, heap => freeLoop fuel (heap.next a) (heap.free a)

/-- `pager_reset` -/
def pagerReset (s : State) : Option State :=
  (freeLoop (s.heap.live.length + 1) s.pager.free s.heap).bind fun heap =>
    (freeLoop (heap.live.length + 1) s.pager.head heap).map fun heap =>
      ⟨{ s.pager with count := 0, head := none, tail := none, free := none }, heap⟩

end CprFormal.Mempager.Model
