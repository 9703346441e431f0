import Mathlib.Data.List.Pairwise
import CprFormal.Library.Transition
import CprFormal.Mempager.Model

/-!
# Safety of the page allocator

Through every run of allocations, requests, duplications and resets, with `malloc`
free to fail, the pages form a doubly linked list, the counters agree with it, and
the ranges handed out since the last reset are disjoint and inside their pages.
-/

namespace CprFormal.Mempager.Safety

open CprFormal.Library CprFormal.Library.LinkedList CprFormal.Library.Transition
open CprFormal.Library.FlatMemory
open CprFormal.Strchar.Strlen CprFormal.Strchar.Strcpy
open CprFormal.Mempager.Model
open Function (update_of_ne)

/-! ## The pages held -/

/-- Two blocks of `size` bytes do not overlap. -/
def Apart (size a b : Nat) : Prop := a + size ≤ b ∨ b + size ≤ a

/-- What `malloc(size)` promises of a block: it lies in the address space and apart
from all live blocks. -/
def FreshBlock (heap : Heap) (size a : Nat) : Prop :=
  a + size ≤ 2 ^ 64 ∧ ∀ b ∈ heap.live, Apart size b a

/-- The pages linked are the live blocks, each of them once. -/
structure Keeps (s : State) : Prop where
  linked : Linked s.heap.next s.heap.prev none s.pager.head s.heap.live s.pager.tail
  free : s.pager.free = none
  distinct : s.heap.live.Nodup

/-- The pager holds the pages of the list, in this order. -/
structure Holds (s : State) (held : List Nat) : Prop where
  linked : Linked s.heap.next s.heap.prev none s.pager.head held s.pager.tail
  free : s.pager.free = none
  live : s.heap.live = held
  apart : held.Pairwise (Apart s.pager.size)
  used : ∀ a ∈ held, sizeofPage ≤ s.heap.used a ∧ s.heap.used a ≤ s.pager.size
  count : s.pager.count = held.length % 2 ^ 32
  limit : s.pager.limit ≠ 0 → held.length ≤ s.pager.limit

/-- The sizes the pager was created with. -/
structure Bounds (pager : MempagerT) : Prop where
  header : sizeofPage ≤ pager.size
  small : pager.size < 2 ^ 63
  unsigned : pager.limit < 2 ^ 32

/-- The least that is asked of these sizes. -/
structure Wide (pager : MempagerT) : Prop where
  header : sizeofPage ≤ pager.size
  word : pager.size < 2 ^ 64
  unsigned : pager.limit < 2 ^ 32

instance (size : Nat) : Std.Symm (Apart size) := ⟨fun _ _ => Or.symm⟩

theorem nodup_of_apart {size : Nat} (positive : 0 < size) {held : List Nat}
    (apart : held.Pairwise (Apart size)) : held.Nodup := by
  refine apart.imp ?_
  rintro a b (before | behind) same
  · omega
  · omega

/-- The header of a page after another one has been linked. -/
theorem linkPage_page (pager : MempagerT) (heap : Heap) (a b : Nat) :
    (linkPage pager heap a).heap.page b =
      if b = a then ⟨none, pager.tail, sizeofPage⟩
      else if pager.tail = some b then { heap.page b with next := some a }
      else heap.page b := by
  unfold linkPage
  by_cases here : b = a
  · subst here
    simp
  · rw [if_neg here]
    cases tail : pager.tail with
    | none => simp [here]
    | some last =>
        by_cases behind : last = b
        · subst behind
          simp [here]
        · have apart : b ≠ last := fun same => behind same.symm
          simp [here, behind, apart]

section Operations

variable {s : State} {held : List Nat}

theorem Bounds.wide (bounds : Bounds s.pager) : Wide s.pager where
  header := bounds.header
  word := Nat.lt_trans bounds.small (by decide)
  unsigned := bounds.unsigned

theorem Wide.positive (wide : Wide s.pager) : 0 < s.pager.size :=
  Nat.lt_of_lt_of_le (by decide) wide.header

theorem Holds.nodup (holds : Holds s held) (wide : Wide s.pager) : held.Nodup :=
  nodup_of_apart wide.positive holds.apart

theorem Holds.keeps (holds : Holds s held) (wide : Wide s.pager) : Keeps s where
  linked := holds.live.symm ▸ holds.linked
  free := holds.free
  distinct := holds.live.symm ▸ holds.nodup wide

theorem Holds.fresh_not_mem (holds : Holds s held) (wide : Wide s.pager) {a : Nat}
    (fresh : FreshBlock s.heap s.pager.size a) : a ∉ held := by
  intro member
  rw [← holds.live] at member
  have positive := wide.positive
  rcases fresh.2 a member with before | behind
  · omega
  · omega

/-- The state after a fresh page has been linked. -/
def requested (s : State) (a : Nat) : State :=
  linkPage { s.pager with count := (s.pager.count + 1) % 2 ^ 32 } (s.heap.malloc a) a

theorem requested_page (s : State) (a b : Nat) :
    (requested s a).heap.page b =
      if b = a then ⟨none, s.pager.tail, sizeofPage⟩
      else if s.pager.tail = some b then ⟨some a, s.heap.prev b, s.heap.used b⟩
      else s.heap.page b :=
  linkPage_page _ _ a b

theorem requested_used (a b : Nat) :
    (requested s a).heap.used b = if b = a then sizeofPage else s.heap.used b := by
  unfold Heap.used
  rw [requested_page]
  split
  · rfl
  · split
    · rfl
    · rfl

theorem requested_linked (keeps : Keeps s) {a : Nat} (fresh : a ∉ s.heap.live) :
    Linked (requested s a).heap.next (requested s a).heap.prev none (requested s a).pager.head
      (s.heap.live ++ [a]) (some a) := by
  have page := requested_page s a
  have other {b : Nat} (member : b ∈ s.heap.live) : b ≠ a := fun same => fresh (same ▸ member)
  have last := keeps.linked.last_eq
  rw [Option.or_none] at last
  cases tail : s.heap.live.getLast? with
  | none =>
      rw [List.getLast?_eq_none_iff.mp tail, List.nil_append]
      rw [tail] at last
      refine ⟨?_, ?_, ?_, rfl⟩
      · simp [requested, linkPage, last]
      · simp [Heap.prev, page, last]
      · simp [Heap.next, page]
  | some end_ =>
      have nonempty : s.heap.live ≠ [] := by
        intro empty
        rw [empty] at tail
        cases tail
      rw [tail] at last
      have linked := keeps.linked
      rw [last] at linked
      have isLast : end_ ∈ s.heap.live := List.mem_of_getLast? tail
      have start : (requested s a).pager.head = s.pager.head := by
        simp [requested, linkPage, last]
      rw [start]
      refine linked.append nonempty keeps.distinct ?_ ?_ ?_ ?_ ?_
      · simp [Heap.next, page, last, other isLast]
      · intro b member apart
        simp [Heap.next, page, last, other member, apart.symm]
      · intro b member
        simp only [Heap.prev, page, if_neg (other member)]
        split
        · rfl
        · rfl
      · simp [Heap.next, page]
      · simp [Heap.prev, page, last]

theorem requested_keeps (keeps : Keeps s) {a : Nat} (fresh : a ∉ s.heap.live) :
    Keeps (requested s a) where
  linked := requested_linked keeps fresh
  free := keeps.free
  distinct := by
    refine List.nodup_append.mpr ⟨keeps.distinct, by simp, ?_⟩
    rintro b old c new rfl
    exact fresh (List.mem_singleton.mp new ▸ old)

/-- A fresh page becomes the last of those held. -/
theorem requested_holds (holds : Holds s held) (wide : Wide s.pager) {a : Nat}
    (fresh : FreshBlock s.heap s.pager.size a)
    (room : s.pager.limit ≠ 0 → s.pager.count < s.pager.limit) :
    Holds (requested s a) (held ++ [a]) := by
  have absent := holds.fresh_not_mem wide fresh
  have count := holds.count
  have unsigned := wide.unsigned
  constructor
  · have linked := requested_linked (holds.keeps wide) (holds.live.symm ▸ absent)
    rwa [holds.live] at linked
  · exact holds.free
  · exact congrArg (· ++ [a]) holds.live
  · refine List.pairwise_append.mpr ⟨holds.apart, List.pairwise_singleton _ _, ?_⟩
    intro b member c new
    rw [List.mem_singleton.mp new]
    exact fresh.2 b (holds.live.symm ▸ member)
  · intro b member
    rw [requested_used]
    change _ ∧ _ ≤ s.pager.size
    rcases List.mem_append.mp member with old | new
    · have other : b ≠ a := fun same => absent (same ▸ old)
      rw [if_neg other]
      exact holds.used b old
    · rw [if_pos (List.mem_singleton.mp new)]
      exact ⟨Nat.le_refl _, wide.header⟩
  · change (s.pager.count + 1) % 2 ^ 32 = _
    rw [List.length_append, List.length_singleton, count]
    omega
  · intro limited
    have full := holds.limit limited
    have below := room limited
    change _ ≤ s.pager.limit
    rw [List.length_append, List.length_singleton]
    omega

/-- `pager_request` fails without a trace or adds a fresh page. -/
theorem request_cases (free : s.pager.free = none) (block : Option Nat) :
    pagerRequest s block = (s, none) ∨
    ∃ a, block = some a ∧ (s.pager.limit ≠ 0 → s.pager.count < s.pager.limit) ∧
      pagerRequest s block = (requested s a, some a) := by
  unfold pagerRequest
  rw [free]
  dsimp only
  by_cases full : s.pager.limit ≠ 0 ∧ s.pager.count ≥ s.pager.limit
  · rw [if_pos full]
    exact .inl rfl
  · rw [if_neg full]
    cases block with
    | none => exact .inl rfl
    | some a =>
        refine .inr ⟨a, rfl, fun limited => ?_, rfl⟩
        exact Nat.lt_of_not_le fun many => full ⟨limited, many⟩

/-- With room for a page and a block, a page is made. -/
theorem request_made (free : s.pager.free = none)
    (room : s.pager.limit ≠ 0 → s.pager.count < s.pager.limit) (a : Nat) :
    pagerRequest s (some a) = (requested s a, some a) := by
  have allowed : ¬ (s.pager.limit ≠ 0 ∧ s.pager.count ≥ s.pager.limit) := fun full =>
    Nat.not_lt.mpr full.2 (room full.1)
  unfold pagerRequest
  rw [free]
  dsimp only
  rw [if_neg allowed]
  rfl

/-! ## Allocating and freeing -/

theorem grow_page (heap : Heap) (a size b : Nat) :
    (heap.grow a size).page b =
      if b = a then ⟨heap.next a, heap.prev a, SizeT.wrap (heap.used a + size)⟩
      else heap.page b :=
  Function.update_apply _ _ _ _

theorem grow_used {a size : Nat} (small : s.heap.used a + size < 2 ^ 64) (b : Nat) :
    (s.heap.grow a size).used b = if b = a then s.heap.used a + size else s.heap.used b := by
  unfold Heap.used
  rw [grow_page]
  split
  · exact SizeT.wrap_of_lt small
  · rfl

theorem grow_links (heap : Heap) (a size b : Nat) :
    (heap.grow a size).next b = heap.next b ∧ (heap.grow a size).prev b = heap.prev b := by
  unfold Heap.next Heap.prev
  rw [grow_page]
  split
  · rename_i here
    subst here
    exact ⟨rfl, rfl⟩
  · exact ⟨rfl, rfl⟩

theorem grow_keeps (keeps : Keeps s) (a size : Nat) : Keeps ⟨s.pager, s.heap.grow a size⟩ where
  linked := keeps.linked.congr (fun b _ => (grow_links s.heap a size b).1)
    (fun b _ => (grow_links s.heap a size b).2)
  free := keeps.free
  distinct := keeps.distinct

/-- The bytes behind the used ones of a page are taken. -/
theorem grow_holds (holds : Holds s held) (wide : Wide s.pager) {a size : Nat}
    (fit : s.heap.used a + size ≤ s.pager.size) :
    Holds ⟨s.pager, s.heap.grow a size⟩ held := by
  have word := wide.word
  refine { holds with
    linked := holds.linked.congr (fun b _ => (grow_links s.heap a size b).1)
      (fun b _ => (grow_links s.heap a size b).2)
    used := fun b member => ?_ }
  change _ ∧ _ ≤ s.pager.size
  rw [grow_used (by omega)]
  have old := holds.used b member
  split
  · rename_i here
    subst here
    exact ⟨Nat.le_trans old.1 (Nat.le_add_right _ _), fit⟩
  · exact old

/-- What `pager_alloc` does in terms of the pages held: it fails without a trace, takes
bytes of the first page with room, or takes the first bytes of a fresh page.  The sums
may wrap around. -/
theorem alloc_outcome (keeps : Keeps s) (size : Nat) (block : Option Nat) :
    (pagerAlloc s size block = some (s, none) ∧
      (SizeT.wrap (size + sizeofPage) ≤ s.pager.size →
        s.heap.live.find? (fits s size) = none ∧ pagerRequest s block = (s, none))) ∨
    (∃ a, s.heap.live.find? (fits s size) = some a ∧
      SizeT.wrap (size + sizeofPage) ≤ s.pager.size ∧
      pagerAlloc s size block =
        some (⟨s.pager, s.heap.grow a size⟩, some (a + s.heap.used a))) ∨
    ∃ a, s.heap.live.find? (fits s size) = none ∧
      SizeT.wrap (size + sizeofPage) ≤ s.pager.size ∧ block = some a ∧
      (s.pager.limit ≠ 0 → s.pager.count < s.pager.limit) ∧
      pagerAlloc s size block =
        some (⟨(requested s a).pager, (requested s a).heap.grow a size⟩, some (a + sizeofPage)) := by
  unfold pagerAlloc
  by_cases large : SizeT.wrap (size + sizeofPage) > s.pager.size
  · rw [if_pos large]
    exact .inl ⟨rfl, fun admitted => absurd admitted (Nat.not_le.mpr large)⟩
  · rw [if_neg large, keeps.linked.walk_eq _ (Nat.lt_succ_self _)]
    have admitted := Nat.le_of_not_lt large
    cases found : s.heap.live.find? (fits s size) with
    | some a => exact .inr (.inl ⟨a, rfl, admitted, rfl⟩)
    | none =>
        rcases request_cases keeps.free block with failed | ⟨a, returned, room, done⟩
        · refine .inl ⟨?_, fun _ => ⟨rfl, failed⟩⟩
          simp [failed]
        · refine .inr (.inr ⟨a, rfl, admitted, returned, room, ?_⟩)
          simp [done]

/-- What `pager_alloc` can do when no sum wraps around. -/
theorem alloc_cases (holds : Holds s held) (wide : Wide s.pager) {size : Nat}
    (small : size + sizeofPage < 2 ^ 64)
    (unwrapped : size + sizeofPage ≤ s.pager.size → ∀ a ∈ held, s.heap.used a + size < 2 ^ 64)
    (block : Option Nat) :
    pagerAlloc s size block = some (s, none) ∨
    (∃ a ∈ held, s.heap.used a + size ≤ s.pager.size ∧
      pagerAlloc s size block =
        some (⟨s.pager, s.heap.grow a size⟩, some (a + s.heap.used a))) ∨
    ∃ a, block = some a ∧ (s.pager.limit ≠ 0 → s.pager.count < s.pager.limit) ∧
      sizeofPage + size ≤ s.pager.size ∧
      pagerAlloc s size block =
        some (⟨(requested s a).pager, (requested s a).heap.grow a size⟩, some (a + sizeofPage)) := by
  rcases alloc_outcome (holds.keeps wide) size block with
    ⟨failed, _⟩ | ⟨a, found, admitted, done⟩ | ⟨a, _, admitted, returned, room, done⟩
  · exact .inl failed
  · rw [SizeT.wrap_of_lt small] at admitted
    rw [holds.live] at found
    have member := List.mem_of_find?_eq_some found
    have fit := List.find?_some found
    simp only [fits, decide_eq_true_eq] at fit
    rw [SizeT.wrap_of_lt (unwrapped admitted a member)] at fit
    exact .inr (.inl ⟨a, member, fit, done⟩)
  · rw [SizeT.wrap_of_lt small] at admitted
    exact .inr (.inr ⟨a, returned, room, by omega, done⟩)

/-- Freeing the nodes of a list frees each of them once, in order. -/
theorem freeLoop_linked {heap : Heap} {nodes : List Nat} {prior start last : Option Nat}
    (linked : Linked heap.next heap.prev prior start nodes last) (distinct : nodes.Nodup)
    (live : heap.live = nodes) {fuel : Nat} (enough : nodes.length < fuel) :
    ∃ after, freeLoop fuel start heap = some after ∧ after.live = [] ∧
      after.freed = heap.freed ++ nodes := by
  induction fuel generalizing heap nodes prior start with
  | zero => exact absurd enough (Nat.not_lt_zero _)
  | succ fuel ih =>
      cases nodes with
      | nil =>
          rw [linked.1]
          exact ⟨heap, rfl, live, (List.append_nil _).symm⟩
      | cons a rest =>
          obtain ⟨first, _, later⟩ := linked
          obtain ⟨absent, distinct⟩ := List.nodup_cons.mp distinct
          have kept (b : Nat) (member : b ∈ rest) : (heap.free a).page b = heap.page b := by
            have other : b ≠ a := fun same => absent (same ▸ member)
            exact update_of_ne other _ _
          have remaining : (heap.free a).live = rest := by
            unfold Heap.free
            rw [live, List.erase_cons_head]
          obtain ⟨after, ended, empty, freed⟩ := ih
            (later.congr (fun b member => congrArg Mempage.next (kept b member))
              (fun b member => congrArg Mempage.prev (kept b member)))
            distinct remaining (Nat.lt_of_succ_lt_succ enough)
          refine ⟨after, ?_, empty, ?_⟩
          · rw [first]
            exact ended
          · rw [freed]
            exact List.append_assoc _ _ _

/-- `pager_reset` frees every page held once and leaves the pager as it was
created. -/
theorem reset_done (keeps : Keeps s) :
    ∃ after, pagerReset s = some after ∧
      after.pager = pagerCreate s.pager.size s.pager.limit ∧ after.heap.live = [] ∧
      after.heap.freed = s.heap.freed ++ s.heap.live := by
  obtain ⟨heap, ended, empty, freed⟩ :=
    freeLoop_linked keeps.linked keeps.distinct rfl (Nat.lt_succ_self _)
  refine ⟨⟨_, heap⟩, ?_, rfl, empty, freed⟩
  unfold pagerReset
  rw [keeps.free, freeLoop, Option.bind_some, ended]
  rfl

end Operations

/-- `len` bytes from `start` on. -/
structure Range where
  start : Nat
  len : Nat

def Range.Disjoint (r q : Range) : Prop := r.start + r.len ≤ q.start ∨ q.start + q.len ≤ r.start

/-- The ranges are disjoint and lie in the used parts of the pages, behind the
headers. -/
structure RangesOk (s : State) (held : List Nat) (ranges : List Range) : Prop where
  inside : ∀ r ∈ ranges, ∃ p ∈ held,
    p + sizeofPage ≤ r.start ∧ r.start + r.len ≤ p + s.heap.used p
  disjoint : ranges.Pairwise Range.Disjoint

section Ranges

variable {s : State} {held : List Nat} {ranges : List Range}

theorem ranges_requested (ok : RangesOk s held ranges) {a : Nat} (absent : a ∉ held) :
    RangesOk (requested s a) (held ++ [a]) ranges := by
  refine ⟨fun r member => ?_, ok.disjoint⟩
  obtain ⟨p, page, low, high⟩ := ok.inside r member
  refine ⟨p, List.mem_append_left _ page, low, ?_⟩
  rwa [requested_used, if_neg fun same : p = a => absent (same ▸ page)]

/-- The bytes taken of a page lie behind all those taken before. -/
theorem ranges_grow (holds : Holds s held) (wide : Wide s.pager)
    (ok : RangesOk s held ranges) {a size : Nat} (member : a ∈ held)
    (fit : s.heap.used a + size ≤ s.pager.size) :
    RangesOk ⟨s.pager, s.heap.grow a size⟩ held (ranges ++ [⟨a + s.heap.used a, size⟩]) := by
  have unwrapped : s.heap.used a + size < 2 ^ 64 := Nat.lt_of_le_of_lt fit wide.word
  have grown := grow_used unwrapped
  have used := holds.used a member
  constructor
  · intro r handed
    rcases List.mem_append.mp handed with old | new
    · obtain ⟨p, page, low, high⟩ := ok.inside r old
      refine ⟨p, page, low, ?_⟩
      rw [grown p]
      split
      · rename_i same
        subst same
        omega
      · exact high
    · rw [List.mem_singleton.mp new]
      refine ⟨a, member, ?_, ?_⟩
      · exact Nat.add_le_add_left used.1 a
      · rw [grown a, if_pos rfl]
        exact Nat.le_of_eq (Nat.add_assoc _ _ _)
  · refine List.pairwise_append.mpr ⟨ok.disjoint, List.pairwise_singleton _ _, ?_⟩
    intro r old q new
    rw [List.mem_singleton.mp new]
    obtain ⟨p, page, low, high⟩ := ok.inside r old
    by_cases same : p = a
    · subst same
      exact .inl high
    · have room := (holds.used p page).2
      rcases holds.apart.forall page member same with before | behind
      · exact .inl (by dsimp only; omega)
      · exact .inr (by dsimp only; omega)

/-- A range inside one page touches no header. -/
theorem header_untouched (holds : Holds s held) (wide : Wide s.pager)
    (ok : RangesOk s held ranges) {r : Range} (member : r ∈ ranges) {p : Nat} (page : p ∈ held) :
    r.start + r.len ≤ p ∨ p + sizeofPage ≤ r.start := by
  obtain ⟨own, ownPage, low, high⟩ := ok.inside r member
  have room := (holds.used own ownPage).2
  have header := wide.header
  by_cases same : own = p
  · subst same
    exact .inr low
  · rcases holds.apart.forall ownPage page same with before | behind
    · exact .inl (by omega)
    · exact .inr (by omega)

end Ranges

/-! ## Runs -/

/-- A call with the answer of `malloc` should it be asked. -/
inductive Op where
  | alloc (size : Nat) (block : Option Nat)
  | request (block : Option Nat)
  | strdup (str : Option CString) (block : Option Nat)
  | reset

/-- The state after a call and the pointer it returns. -/
def perform (s : State) : Op → Option (State × Option Nat)
  | .alloc size block => pagerAlloc s size block
  | .request block => some (pagerRequest s block)
  | .strdup str block => pagerStrdup s str block
  | .reset => (pagerReset s).map fun after => (after, none)

/-- A pager with the ranges it has handed out since the last reset. -/
structure History where
  state : State
  ranges : List Range

/-- The ranges after a call that has returned `result`. -/
def rangesAfter (h : History) (result : Option Nat) : Op → List Range
  | .alloc size _ => h.ranges ++ (result.map fun start => ⟨start, size⟩).toList
  | .request _ => h.ranges
  | .strdup str _ =>
      h.ranges ++ (result.map fun start => ⟨start, strdupSize h.state str⟩).toList
  | .reset => []

def step (h : History) (op : Op) : Option (History × Option Nat) :=
  (perform h.state op).map fun done => (⟨done.1, rangesAfter h done.2 op⟩, done.2)

def MallocPromise (s : State) (block : Option Nat) : Prop :=
  ∀ a, block = some a → FreshBlock s.heap s.pager.size a

/-- Sizes do not wrap around when the header is added, a text is shorter than the
address space, and `malloc` keeps its promise. -/
def Promised (s : State) : Op → Prop
  | .alloc size block => size + sizeofPage < 2 ^ 64 ∧ MallocPromise s block
  | .request block => MallocPromise s block
  | .strdup str block =>
      (∀ text, str = some text → text.length + 1 + sizeofPage < 2 ^ 64) ∧ MallocPromise s block
  | .reset => True

def system (pagesize : Nat) (limit : UInt32) : System History Op where
  init h := h.state.pager = pagerCreate pagesize limit.toNat ∧ h.state.heap.live = [] ∧
    h.ranges = []
  step h op after := Promised h.state op ∧ ∃ result, step h op = some (after, result)

/-- What holds between calls. -/
structure Inv (pagesize : Nat) (limit : UInt32) (h : History) (held : List Nat) : Prop where
  size : h.state.pager.size = pagesize
  limit : h.state.pager.limit = limit.toNat
  holds : Holds h.state held
  ranges : RangesOk h.state held h.ranges

section Steps

variable {pagesize : Nat} {limit : UInt32} {h : History} {held : List Nat}

theorem Inv.bounds (inv : Inv pagesize limit h held) (header : sizeofPage ≤ pagesize)
    (small : pagesize < 2 ^ 63) : Bounds h.state.pager where
  header := by rwa [inv.size]
  small := by rwa [inv.size]
  unsigned := by
    rw [inv.limit]
    exact limit.toNat_lt

/-- A request fails without a trace or keeps the invariant with one page more. -/
theorem request_inv (inv : Inv pagesize limit h held) (bounds : Bounds h.state.pager)
    {block : Option Nat} (promise : MallocPromise h.state block) :
    pagerRequest h.state block = (h.state, none) ∨
    ∃ a, pagerRequest h.state block = (requested h.state a, some a) ∧
      Inv pagesize limit ⟨requested h.state a, h.ranges⟩ (held ++ [a]) := by
  rcases request_cases inv.holds.free block with failed | ⟨a, returned, room, done⟩
  · exact .inl failed
  · have fresh := promise a returned
    refine .inr ⟨a, done, inv.size, inv.limit, requested_holds inv.holds bounds.wide fresh room, ?_⟩
    exact ranges_requested inv.ranges (inv.holds.fresh_not_mem bounds.wide fresh)

/-- Taking bytes of a page keeps the invariant with one range more. -/
theorem grow_inv (inv : Inv pagesize limit h held) (bounds : Bounds h.state.pager) {a size : Nat}
    (member : a ∈ held) (fit : h.state.heap.used a + size ≤ h.state.pager.size) :
    Inv pagesize limit
      ⟨⟨h.state.pager, h.state.heap.grow a size⟩,
        h.ranges ++ [⟨a + h.state.heap.used a, size⟩]⟩ held where
  size := inv.size
  limit := inv.limit
  holds := grow_holds inv.holds bounds.wide fit
  ranges := ranges_grow inv.holds bounds.wide inv.ranges member fit

theorem alloc_inv (inv : Inv pagesize limit h held) (bounds : Bounds h.state.pager)
    {size : Nat} (small : size + sizeofPage < 2 ^ 64) {block : Option Nat}
    (promise : MallocPromise h.state block) :
    pagerAlloc h.state size block = some (h.state, none) ∨
    ∃ after held start, pagerAlloc h.state size block = some (after, some start) ∧
      Inv pagesize limit ⟨after, h.ranges ++ [⟨start, size⟩]⟩ held := by
  have half := bounds.small
  have unwrapped : size + sizeofPage ≤ h.state.pager.size →
      ∀ a ∈ held, h.state.heap.used a + size < 2 ^ 64 := fun admitted a member => by
    have used := (inv.holds.used a member).2
    omega
  rcases alloc_cases inv.holds bounds.wide small unwrapped block with
    failed | ⟨a, member, fit, done⟩ | ⟨a, returned, room, fit, done⟩
  · exact .inl failed
  · exact .inr ⟨_, held, _, done, grow_inv inv bounds member fit⟩
  · have fresh := promise a returned
    have next : Inv pagesize limit ⟨requested h.state a, h.ranges⟩ (held ++ [a]) :=
      ⟨inv.size, inv.limit, requested_holds inv.holds bounds.wide fresh room,
        ranges_requested inv.ranges (inv.holds.fresh_not_mem bounds.wide fresh)⟩
    have used : (requested h.state a).heap.used a = sizeofPage := by
      rw [requested_used, if_pos rfl]
    have nextBounds : Bounds (requested h.state a).pager :=
      ⟨bounds.header, bounds.small, bounds.unsigned⟩
    have grown := grow_inv next nextBounds (List.mem_append_right held (List.mem_singleton_self a))
      (show (requested h.state a).heap.used a + size ≤ h.state.pager.size by rwa [used])
    refine .inr ⟨_, held ++ [a], _, done, ?_⟩
    dsimp only at grown
    rwa [used] at grown

/-- The data bytes do not matter. -/
theorem Inv.setBytes (inv : Inv pagesize limit h held) (bytes : Memory UInt8) :
    Inv pagesize limit ⟨⟨h.state.pager, { h.state.heap with bytes := bytes }⟩, h.ranges⟩ held :=
  ⟨inv.size, inv.limit, { inv.holds with }, { inv.ranges with }⟩

theorem strdupSize_small {s : State} {str : Option CString}
    (short : ∀ text, str = some text → text.length + 1 + sizeofPage < 2 ^ 64) :
    strdupSize s str + sizeofPage < 2 ^ 64 := by
  cases str with
  | none =>
      change 1 + sizeofPage < 2 ^ 64
      decide
  | some text =>
      have below := short text rfl
      have counted := cprStrlen_char text (SizeT.sub (SizeT.sub s.pager.size sizeofPage) 1)
      unfold strdupSize
      dsimp only
      rw [SizeT.wrap_of_lt (by omega)]
      omega

theorem strdup_inv (inv : Inv pagesize limit h held) (bounds : Bounds h.state.pager)
    {str : Option CString} {block : Option Nat}
    (short : ∀ text, str = some text → text.length + 1 + sizeofPage < 2 ^ 64)
    (promise : MallocPromise h.state block) :
    pagerStrdup h.state str block = some (h.state, none) ∨
    ∃ after held start, pagerStrdup h.state str block = some (after, some start) ∧
      Inv pagesize limit ⟨after, h.ranges ++ [⟨start, strdupSize h.state str⟩]⟩ held := by
  unfold pagerStrdup
  dsimp only
  rcases alloc_inv inv bounds (strdupSize_small short) promise with
    failed | ⟨after, held, start, done, next⟩
  · rw [failed]
    exact .inl rfl
  · rw [done]
    cases str with
    | none => exact .inr ⟨after, held, start, rfl, next⟩
    | some text => exact .inr ⟨_, held, start, rfl, next.setBytes _⟩

/-- A call other than a reset returns; with `NULL` everything is as it was, and with
a pointer the invariant holds. -/
theorem step_allocated (inv : Inv pagesize limit h held) (bounds : Bounds h.state.pager)
    {op : Op} (promised : Promised h.state op) (noReset : op ≠ .reset) :
    step h op = some (h, none) ∨
    ∃ after held start, step h op = some (after, some start) ∧ Inv pagesize limit after held := by
  cases op with
  | alloc size block =>
      rcases alloc_inv inv bounds promised.1 promised.2 with
        failed | ⟨after, held, start, done, next⟩
      · exact .inl (by simp [step, perform, failed, rangesAfter])
      · exact .inr ⟨_, held, start, by simp [step, perform, done, rangesAfter], next⟩
  | request block =>
      rcases request_inv inv bounds promised with failed | ⟨a, done, next⟩
      · exact .inl (by simp [step, perform, failed, rangesAfter])
      · exact .inr ⟨_, held ++ [a], a, by simp [step, perform, done, rangesAfter], next⟩
  | strdup str block =>
      rcases strdup_inv inv bounds promised.1 promised.2 with
        failed | ⟨after, held, start, done, next⟩
      · exact .inl (by simp [step, perform, failed, rangesAfter])
      · exact .inr ⟨_, held, start, by simp [step, perform, done, rangesAfter], next⟩
  | reset => exact absurd rfl noReset

theorem init_inv {h : History} (init : (system pagesize limit).init h) :
    Inv pagesize limit h [] := by
  obtain ⟨created, live, ranges⟩ := init
  refine ⟨by rw [created]; rfl, by rw [created]; rfl, ?_, ?_⟩
  · refine ⟨?_, by rw [created]; rfl, live, List.Pairwise.nil, by simp, by rw [created]; rfl, by simp⟩
    rw [created]
    exact ⟨rfl, rfl⟩
  · rw [ranges]
    exact ⟨by simp, List.Pairwise.nil⟩

/-- A reset returns to the state in which the pager was created. -/
theorem step_reset (inv : Inv pagesize limit h held) (bounds : Bounds h.state.pager) :
    ∃ after, step h .reset = some (after, none) ∧ (system pagesize limit).init after ∧
      after.state.heap.freed = h.state.heap.freed ++ held := by
  obtain ⟨after, done, created, live, freed⟩ := reset_done (inv.holds.keeps bounds.wide)
  rw [inv.size, inv.limit] at created
  rw [inv.holds.live] at freed
  exact ⟨⟨after, []⟩, by simp [step, perform, done, rangesAfter], ⟨created, live, rfl⟩, freed⟩

theorem run_inv (header : sizeofPage ≤ pagesize) (small : pagesize < 2 ^ 63) {trace : List Op}
    (run : Run (system pagesize limit) trace h) : ∃ held, Inv pagesize limit h held := by
  refine run.invariant (fun _ h => ∃ held, Inv pagesize limit h held) ?_ ?_
  · exact fun h init => ⟨[], init_inv init⟩
  · rintro trace h op after ⟨held, inv⟩ ⟨promised, result, stepped⟩
    have bounds := inv.bounds header small
    by_cases reset : op = .reset
    · subst reset
      obtain ⟨fresh, done, init, _⟩ := step_reset inv bounds
      cases done.symm.trans stepped
      exact ⟨[], init_inv init⟩
    · rcases step_allocated inv bounds promised reset with failed | ⟨next, held, start, done, kept⟩
      · cases failed.symm.trans stepped
        exact ⟨held, inv⟩
      · cases done.symm.trans stepped
        exact ⟨held, kept⟩

end Steps

/-- A pager in good order, with the pages of the list. -/
structure Safe (pagesize limit : Nat) (h : History) (held : List Nat) : Prop where
  linked : Linked h.state.heap.next h.state.heap.prev none h.state.pager.head held
    h.state.pager.tail
  distinct : held.Nodup
  free : h.state.pager.free = none
  used : ∀ p ∈ held, sizeofPage ≤ h.state.heap.used p ∧ h.state.heap.used p ≤ pagesize
  count : h.state.pager.count = held.length % 2 ^ 32
  limit : limit ≠ 0 → h.state.pager.count ≤ limit
  disjoint : h.ranges.Pairwise Range.Disjoint
  inside : ∀ r ∈ h.ranges, ∃ p ∈ held,
    p + sizeofPage ≤ r.start ∧ r.start + r.len ≤ p + pagesize
  headers : ∀ r ∈ h.ranges, ∀ p ∈ held, r.start + r.len ≤ p ∨ p + sizeofPage ≤ r.start

theorem safe_of_inv {pagesize : Nat} {limit : UInt32} {h : History} {held : List Nat}
    (inv : Inv pagesize limit h held) (bounds : Bounds h.state.pager) :
    Safe pagesize limit.toNat h held where
  linked := inv.holds.linked
  distinct := inv.holds.nodup bounds.wide
  free := inv.holds.free
  used p page := inv.size ▸ inv.holds.used p page
  count := inv.holds.count
  limit limited := by
    rw [← inv.limit] at limited ⊢
    rw [inv.holds.count]
    exact Nat.le_trans (Nat.mod_le _ _) (inv.holds.limit limited)
  disjoint := inv.ranges.disjoint
  inside r member := by
    obtain ⟨p, page, low, high⟩ := inv.ranges.inside r member
    have room := (inv.holds.used p page).2
    rw [inv.size] at room
    exact ⟨p, page, low, by omega⟩
  headers r member p page := header_untouched inv.holds bounds.wide inv.ranges member page

/-- After every run the pager is in good order and every further call returns: one
that returns `NULL` changes nothing, and a reset frees every page held once and
returns the pager to its freshly created state. -/
theorem pager_safety (pagesize : Nat) (limit : UInt32) (header : sizeofPage ≤ pagesize)
    (small : pagesize < 2 ^ 63) {trace : List Op} {h : History}
    (run : Run (system pagesize limit) trace h) :
    ∃ held, Safe pagesize limit.toNat h held ∧
      ∀ op, Promised h.state op → ∃ after result, step h op = some (after, result) ∧
        (op ≠ .reset → result = none → after = h) ∧
        (op = .reset → (system pagesize limit).init after ∧
          after.state.heap.freed = h.state.heap.freed ++ held) := by
  obtain ⟨held, inv⟩ := run_inv header small run
  have bounds := inv.bounds header small
  refine ⟨held, safe_of_inv inv bounds, fun op promised => ?_⟩
  by_cases reset : op = .reset
  · subst reset
    obtain ⟨after, done, init, freed⟩ := step_reset inv bounds
    exact ⟨after, none, done, fun noReset => absurd rfl noReset, fun _ => ⟨init, freed⟩⟩
  · rcases step_allocated inv bounds promised reset with failed | ⟨after, _, start, done, _⟩
    · exact ⟨h, none, failed, fun _ _ => rfl, fun isReset => absurd isReset reset⟩
    · exact ⟨after, some start, done, fun _ null => (by cases null), fun isReset =>
        absurd isReset reset⟩

theorem run_alloc {pagesize : Nat} {limit : UInt32} {trace : List Op} {h after : History}
    {result : Option Nat} (run : Run (system pagesize limit) trace h) (size : Nat)
    (block : Option Nat) (small : size + sizeofPage < 2 ^ 64)
    (promise : MallocPromise h.state block)
    (done : step h (.alloc size block) = some (after, result)) :
    Run (system pagesize limit) (trace ++ [.alloc size block]) after :=
  run.next ⟨⟨small, promise⟩, result, done⟩

/-- Two allocations that need a page each, and a third from the rest of the first. -/
theorem pager_safety_first_fit :
    ∃ h held, h.ranges = [⟨1024, 30⟩, ⟨2024, 30⟩, ⟨1054, 5⟩] ∧ Safe 64 2 h held := by
  have start : Run (system 64 2) []
      ⟨⟨pagerCreate 64 2, ⟨fun _ => ⟨none, none, 0⟩, fun _ => 0, [], []⟩⟩, []⟩ :=
    .start ⟨rfl, rfl, rfl⟩
  have first := run_alloc start 30 (some 1000) (by decide) (by
    rintro a ⟨⟩
    exact ⟨by decide, by simp⟩) rfl
  have second := run_alloc first 30 (some 2000) (by decide) (by
    rintro a ⟨⟩
    refine ⟨by decide, fun b member => ?_⟩
    cases List.mem_singleton.mp member
    exact .inl (by decide)) rfl
  have third := run_alloc second 5 none (by decide) (by rintro a ⟨⟩) rfl
  obtain ⟨held, safe, _⟩ := pager_safety 64 2 (by decide) (by decide) third
  exact ⟨_, held, rfl, safe⟩

end CprFormal.Mempager.Safety
