import CprFormal.Mempager.Safety

/-!
# Runs of the page allocator with requests of any size

Whatever is asked for, the pages stay linked, each of them once.  A request may wrap
around when it is added to what a page has used; the links do not depend on that.
-/

namespace CprFormal.Mempager.Runs

open CprFormal.Library CprFormal.Library.LinkedList CprFormal.Library.Transition
open CprFormal.Library.FlatMemory
open CprFormal.Strchar.Strlen
open CprFormal.Mempager.Model CprFormal.Mempager.Safety

/-- `malloc` returns a block in the address space, apart from the live ones and none
of them. -/
def NewBlock (s : State) (block : Option Nat) : Prop :=
  ∀ a, block = some a → FreshBlock s.heap s.pager.size a ∧ a ∉ s.heap.live

/-- The answer of `malloc` in a call. -/
def blockOf : Op → Option Nat
  | .alloc _ block => block
  | .request block => block
  | .strdup _ block => block
  | .reset => none

/-- The size a call hands to `pager_alloc`. -/
def sizeAsked (s : State) : Op → Option Nat
  | .alloc size _ => some size
  | .strdup str _ => some (strdupSize s str)
  | _ => none

/-- The runs of a pager, with requests of any size. -/
def anySizes (pagesize : Nat) (limit : UInt32) : System State Op where
  init s := s.pager = pagerCreate pagesize limit.toNat ∧ s.heap.live = []
  step s op after := NewBlock s (blockOf op) ∧ ∃ result, perform s op = some (after, result)

/-- The page that serves a request: the first one with room, or a new one. -/
def serving (s : State) (size : Nat) (block : Option Nat) : Option Nat :=
  (s.heap.live.find? (fits s size)).or block

/-- The first free byte of that page. -/
def firstFree (s : State) (size : Nat) (block : Option Nat) : Option Nat :=
  (serving s size block).map fun a =>
    if a ∈ s.heap.live then a + s.heap.used a else a + sizeofPage

section Steps

variable {s after : State} {result : Option Nat}

/-- The data bytes do not matter. -/
theorem keeps_bytes (keeps : Keeps s) (bytes : Memory UInt8) :
    Keeps ⟨s.pager, { s.heap with bytes := bytes }⟩ :=
  ⟨keeps.linked, keeps.free, keeps.distinct⟩

theorem init_keeps {pagesize : Nat} {limit : UInt32} (init : (anySizes pagesize limit).init s) :
    Keeps s := by
  obtain ⟨created, live⟩ := init
  refine ⟨?_, by rw [created]; rfl, by rw [live]; exact List.nodup_nil⟩
  rw [created, live]
  exact ⟨rfl, rfl⟩

/-- `pager_strdup` allocates and then only changes data bytes. -/
theorem strdup_allocates {str : Option CString} {block : Option Nat}
    (done : pagerStrdup s str block = some (after, result)) :
    ∃ allocated bytes, pagerAlloc s (strdupSize s str) block = some (allocated, result) ∧
      after = ⟨allocated.pager, { allocated.heap with bytes := bytes }⟩ := by
  unfold pagerStrdup at done
  obtain ⟨⟨allocated, out⟩, call, copied⟩ := Option.map_eq_some_iff.mp done
  cases out with
  | none =>
      cases copied
      exact ⟨_, _, call, rfl⟩
  | some out =>
      cases str with
      | none =>
          cases copied
          exact ⟨_, _, call, rfl⟩
      | some text =>
          cases copied
          exact ⟨_, _, call, rfl⟩

theorem alloc_keeps (keeps : Keeps s) {size : Nat} {block : Option Nat} (fresh : NewBlock s block)
    (done : pagerAlloc s size block = some (after, result)) : Keeps after := by
  rcases alloc_outcome keeps size block with
    ⟨call, _⟩ | ⟨a, _, _, call⟩ | ⟨a, _, _, returned, _, call⟩
  · cases call.symm.trans done
    exact keeps
  · cases call.symm.trans done
    exact grow_keeps keeps a size
  · cases call.symm.trans done
    exact grow_keeps (requested_keeps keeps (fresh a returned).2) a size

/-- Every call keeps the pages linked. -/
theorem perform_keeps (keeps : Keeps s) {op : Op} (fresh : NewBlock s (blockOf op))
    (done : perform s op = some (after, result)) : Keeps after := by
  cases op with
  | alloc size block => exact alloc_keeps keeps fresh done
  | request block =>
      have call : pagerRequest s block = (after, result) := Option.some_inj.mp done
      rcases request_cases keeps.free block with failed | ⟨a, returned, _, made⟩
      · cases failed.symm.trans call
        exact keeps
      · cases made.symm.trans call
        exact requested_keeps keeps (fresh a returned).2
  | strdup str block =>
      obtain ⟨allocated, bytes, call, rfl⟩ := strdup_allocates done
      exact keeps_bytes (alloc_keeps keeps fresh call) bytes
  | reset =>
      obtain ⟨cleared, call, created, live, _⟩ := reset_done keeps
      have same : perform s .reset = some (cleared, none) := by
        unfold perform
        rw [call]
        rfl
      cases same.symm.trans done
      refine ⟨?_, by rw [created]; rfl, by rw [live]; exact List.nodup_nil⟩
      rw [created, live]
      exact ⟨rfl, rfl⟩

theorem run_keeps {pagesize : Nat} {limit : UInt32} {trace : List Op}
    (run : Run (anySizes pagesize limit) trace s) : Keeps s := by
  refine run.invariant (fun _ s => Keeps s) (fun s init => init_keeps init) ?_
  rintro trace s op after keeps ⟨fresh, result, done⟩
  exact perform_keeps keeps fresh done

/-- An allocation takes the first free byte of the page that serves it. -/
theorem alloc_firstFree (keeps : Keeps s) {size start : Nat} {block : Option Nat}
    (fresh : NewBlock s block) (done : pagerAlloc s size block = some (after, some start)) :
    firstFree s size block = some start := by
  unfold firstFree serving
  rcases alloc_outcome keeps size block with
    ⟨call, _⟩ | ⟨a, found, _, call⟩ | ⟨a, nowhere, _, returned, _, call⟩
  · cases call.symm.trans done
  · cases call.symm.trans done
    rw [found, Option.some_or, Option.map_some, if_pos (List.mem_of_find?_eq_some found)]
  · cases call.symm.trans done
    rw [nowhere, Option.none_or, returned, Option.map_some, if_neg (fresh a returned).2]

end Steps

end CprFormal.Mempager.Runs
