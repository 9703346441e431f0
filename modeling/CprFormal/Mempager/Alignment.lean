import Mathlib.Data.Nat.ModEq
import CprFormal.Mempager.Admission

/-!
# The alignment of typed allocations

`PAGER(mem, T)` is `pager_alloc(mem, sizeof(T))`, and `pager_alloc` takes the bytes right
behind those used before.  Whether they are aligned depends on everything that has been
taken from the page since it was made: a string or a smaller type leaves the page at an
offset that need not suit the next type.
-/

namespace CprFormal.Mempager.Alignment

open CprFormal.Library CprFormal.Library.LinkedList CprFormal.Library.Transition
open CprFormal.Strchar.Strlen
open CprFormal.Mempager.Model CprFormal.Mempager.Safety CprFormal.Mempager.Runs
open CprFormal.Mempager.Admission
open Function (update update_self update_of_ne)

/-- A type: its size is a multiple of its alignment, which is 1, 2, 4 or 8. -/
structure Layout where
  size : Nat
  align : Nat
  power : align ∣ 8
  multiple : align ∣ size

/-- `PAGER(mem, T)` -/
def PAGER (s : State) (T : Layout) (block : Option Nat) : Option (State × Option Nat) :=
  pagerAlloc s T.size block

/-- `malloc` returns multiples of 16. -/
def AlignedBlock (block : Option Nat) : Prop := ∀ a, block = some a → 16 ∣ a

/-- A pager with the sizes that have been taken from each of its pages. -/
structure Ledger where
  state : State
  taken : Nat → List Nat

/-- One more size is taken from the page that serves it. -/
def Ledger.take (ledger : Ledger) (size : Nat) (block : Option Nat) : Nat → List Nat :=
  match serving ledger.state size block with
  | some a => update ledger.taken a (ledger.taken a ++ [size])
  | none => ledger.taken

/-- The sizes taken after a call that has returned `result`. -/
def Ledger.takenAfter (ledger : Ledger) (result : Option Nat) : Op → Nat → List Nat
  | .reset => fun _ => []
  | op =>
      match result, sizeAsked ledger.state op with
      | some _, some size => ledger.take size (blockOf op)
      | _, _ => ledger.taken

/-- The runs of a pager with the sizes taken. -/
def ledgers (pagesize : Nat) (limit : UInt32) : System Ledger Op where
  init ledger := (anySizes pagesize limit).init ledger.state ∧ ledger.taken = fun _ => []
  step ledger op after := NewBlock ledger.state (blockOf op) ∧ AlignedBlock (blockOf op) ∧
    ∃ result, perform ledger.state op = some (after.state, result) ∧
      after.taken = ledger.takenAfter result op

/-- Every page starts at a multiple of 16 and has used its header and what has been
taken from it. -/
structure Tallied (s : State) (taken : Nat → List Nat) : Prop where
  keeps : Keeps s
  aligned : ∀ a ∈ s.heap.live, 16 ∣ a
  used : ∀ a ∈ s.heap.live, s.heap.used a = SizeT.wrap (sizeofPage + (taken a).sum)
  untouched : ∀ a, a ∉ s.heap.live → taken a = []

section Steps

variable {s : State} {taken : Nat → List Nat}

theorem wrap_add (m n : Nat) : SizeT.wrap (SizeT.wrap m + n) = SizeT.wrap (m + n) :=
  Nat.mod_add_mod m _ n

theorem used_grow (s : State) (a size b : Nat) :
    (s.heap.grow a size).used b =
      if b = a then SizeT.wrap (s.heap.used a + size) else s.heap.used b := by
  unfold Heap.used
  rw [grow_page]
  split
  · rfl
  · rfl

/-- Bytes taken of a page are tallied. -/
theorem tallied_grow (tallied : Tallied s taken) {a : Nat} (member : a ∈ s.heap.live) (size : Nat) :
    Tallied ⟨s.pager, s.heap.grow a size⟩ (update taken a (taken a ++ [size])) where
  keeps := grow_keeps tallied.keeps a size
  aligned := tallied.aligned
  used b page := by
    rw [used_grow]
    split
    · rename_i here
      subst here
      rw [update_self, tallied.used b page, wrap_add, List.sum_append, List.sum_singleton,
        Nat.add_assoc]
    · rename_i other
      rw [update_of_ne other]
      exact tallied.used b page
  untouched b absent := by
    have other : b ≠ a := fun same => absent (same ▸ member)
    rw [update_of_ne other]
    exact tallied.untouched b absent

/-- Nothing has been taken of a new page. -/
theorem tallied_requested (tallied : Tallied s taken) {a : Nat} (absent : a ∉ s.heap.live)
    (block : 16 ∣ a) : Tallied (requested s a) taken where
  keeps := requested_keeps tallied.keeps absent
  aligned b page := by
    rcases List.mem_append.mp page with old | new
    · exact tallied.aligned b old
    · rw [List.mem_singleton.mp new]
      exact block
  used b page := by
    rw [requested_used]
    split
    · rename_i here
      subst here
      rw [tallied.untouched b absent]
      rfl
    · rename_i other
      refine tallied.used b ?_
      rcases List.mem_append.mp page with old | new
      · exact old
      · exact absurd (List.mem_singleton.mp new) other
  untouched b outside := tallied.untouched b fun old => outside (List.mem_append_left _ old)

/-- An allocation is tallied on the page that serves it. -/
theorem tallied_alloc {ledger : Ledger} (tallied : Tallied ledger.state ledger.taken) {size : Nat}
    {block result : Option Nat} (fresh : NewBlock ledger.state block) (aligned : AlignedBlock block)
    {after : State} (done : pagerAlloc ledger.state size block = some (after, result)) :
    Tallied after (if result = none then ledger.taken else ledger.take size block) := by
  rcases alloc_outcome tallied.keeps size block with
    ⟨call, _⟩ | ⟨a, found, _, call⟩ | ⟨a, nowhere, _, returned, _, call⟩
  · cases call.symm.trans done
    rw [if_pos rfl]
    exact tallied
  · cases call.symm.trans done
    have serves : serving ledger.state size block = some a := by
      unfold serving
      rw [found, Option.some_or]
    rw [if_neg (Option.some_ne_none _), Ledger.take, serves]
    exact tallied_grow tallied (List.mem_of_find?_eq_some found) size
  · cases call.symm.trans done
    have serves : serving ledger.state size block = some a := by
      unfold serving
      rw [nowhere, Option.none_or, returned]
    rw [if_neg (Option.some_ne_none _), Ledger.take, serves]
    have next := tallied_requested tallied (fresh a returned).2 (aligned a returned)
    exact tallied_grow next (List.mem_append_right _ (List.mem_singleton_self a)) size

/-- Every call keeps the tally. -/
theorem step_tallied {pagesize : Nat} {limit : UInt32} {ledger after : Ledger} {op : Op}
    (tallied : Tallied ledger.state ledger.taken)
    (step : (ledgers pagesize limit).step ledger op after) : Tallied after.state after.taken := by
  obtain ⟨state, sizes⟩ := after
  obtain ⟨fresh, aligned, result, done, rfl⟩ := step
  dsimp only at done ⊢
  cases op with
  | alloc size block =>
      have next := tallied_alloc tallied fresh aligned done
      cases result with
      | none => exact next
      | some start => exact next
  | request block =>
      have call : pagerRequest ledger.state block = (state, result) := Option.some_inj.mp done
      have same : ledger.takenAfter result (.request block) = ledger.taken := by
        cases result with
        | none => rfl
        | some start => rfl
      rw [same]
      rcases request_cases tallied.keeps.free block with failed | ⟨a, returned, _, made⟩
      · cases failed.symm.trans call
        exact tallied
      · cases made.symm.trans call
        exact tallied_requested tallied (fresh a returned).2 (aligned a returned)
  | strdup str block =>
      obtain ⟨allocated, bytes, call, rfl⟩ := strdup_allocates done
      have next := tallied_alloc tallied fresh aligned call
      have written := keeps_bytes next.keeps bytes
      cases result with
      | none => exact ⟨written, next.aligned, next.used, next.untouched⟩
      | some start => exact ⟨written, next.aligned, next.used, next.untouched⟩
  | reset =>
      have keeps := perform_keeps tallied.keeps fresh done
      obtain ⟨cleared, call, _, live, _⟩ := reset_done tallied.keeps
      have same : perform ledger.state .reset = some (cleared, none) := by
        unfold perform
        rw [call]
        rfl
      cases same.symm.trans done
      refine ⟨keeps, fun a page => ?_, fun a page => ?_, fun a _ => rfl⟩
      · rw [live] at page
        cases page
      · rw [live] at page
        cases page

theorem run_tallied {pagesize : Nat} {limit : UInt32} {trace : List Op} {ledger : Ledger}
    (run : Run (ledgers pagesize limit) trace ledger) : Tallied ledger.state ledger.taken := by
  refine run.invariant (fun _ ledger => Tallied ledger.state ledger.taken) ?_ ?_
  · rintro ledger ⟨init, taken⟩
    refine ⟨init_keeps init, ?_, ?_, fun a _ => by rw [taken]⟩
    · rw [init.2]
      exact fun a page => absurd page List.not_mem_nil
    · rw [init.2]
      exact fun a page => absurd page List.not_mem_nil
  · intro trace ledger op after tallied step
    exact step_tallied tallied step

/-- The first free byte of the serving page suits an alignment when the sizes taken from
the page add up to a multiple of it. -/
theorem firstFree_aligned {s : State} {taken : Nat → List Nat} (tallied : Tallied s taken)
    {size align : Nat} {block : Option Nat} (aligned : AlignedBlock block)
    (power : align ∣ 8) {page address : Nat} (serves : serving s size block = some page)
    (first : firstFree s size block = some address) :
    align ∣ address ↔ align ∣ (taken page).sum := by
  have sixteen : align ∣ 16 := power.trans (by decide)
  have header : align ∣ sizeofPage := power.trans (by decide)
  have wraps : align ∣ 2 ^ 64 := power.trans (by decide)
  unfold firstFree at first
  rw [serves, Option.map_some, Option.some_inj] at first
  by_cases held : page ∈ s.heap.live
  · rw [if_pos held, tallied.used page held] at first
    rw [← first, Nat.dvd_add_right (sixteen.trans (tallied.aligned page held)), SizeT.wrap,
      Nat.dvd_mod_iff wraps, Nat.dvd_add_right header]
  · have new : block = some page := by
      unfold serving at serves
      rcases Option.or_eq_some_iff.mp serves with found | ⟨_, returned⟩
      · exact absurd (List.mem_of_find?_eq_some found) held
      · exact returned
    rw [if_neg held] at first
    rw [← first, Nat.dvd_add_right (sixteen.trans (aligned page new)), tallied.untouched page held]
    exact ⟨fun _ => Nat.dvd_zero align, fun _ => header⟩

end Steps

/-- After every run, the address that `PAGER(mem, T)` returns suits the alignment of `T`
exactly when the sizes taken so far from the page that serves it add up to a multiple of
that alignment. -/
theorem pager_aligned_iff (pagesize : Nat) (limit : UInt32) {trace : List Op} {ledger : Ledger}
    (run : Run (ledgers pagesize limit) trace ledger) (T : Layout) {block : Option Nat}
    (fresh : NewBlock ledger.state block) (aligned : AlignedBlock block) {after : State}
    {address : Nat} (done : PAGER ledger.state T block = some (after, some address)) :
    T.align ∣ address ↔
      ∀ page, serving ledger.state T.size block = some page → T.align ∣ (ledger.taken page).sum := by
  have tallied := run_tallied run
  have first := alloc_firstFree tallied.keeps fresh done
  obtain ⟨page, serves, _⟩ := Option.map_eq_some_iff.mp first
  rw [firstFree_aligned tallied aligned T.power serves first]
  constructor
  · intro sum other same
    rw [serves] at same
    cases same
    exact sum
  · exact fun sums => sums page serves

/-- A `double` -/
def double : Layout := ⟨8, 8, by decide, by decide⟩

/-- A new pager with nothing taken. -/
def opened (pagesize : Nat) (limit : UInt32) : Ledger := ⟨created pagesize limit, fun _ => []⟩

theorem aligned_block {a : Nat} (multiple : 16 ∣ a) : AlignedBlock (some a) := by
  rintro b ⟨⟩
  exact multiple

/-- The first allocation of a new page suits every type. -/
theorem pager_aligned_first :
    ∃ after, PAGER (created 4096 0) double (some 65536) = some (after, some 65560) ∧
      double.align ∣ 65560 := by
  have start : Run (ledgers 4096 0) [] (opened 4096 0) := .start ⟨⟨rfl, rfl⟩, rfl⟩
  refine ⟨_, rfl, ?_⟩
  refine (pager_aligned_iff 4096 0 start double (created_fresh (by decide))
    (aligned_block (by decide)) rfl).mpr ?_
  rintro page ⟨⟩
  decide

/-- Behind a string of one character a `double` is at an odd multiple of two. -/
theorem pager_misaligned :
    ∃ ledger, Run (ledgers 4096 0) [.strdup (some ⟨[97], by simp⟩) (some 65536)] ledger ∧
      ∃ after, PAGER ledger.state double none = some (after, some 65562) ∧
        ¬ double.align ∣ 65562 := by
  have start : Run (ledgers 4096 0) [] (opened 4096 0) := .start ⟨⟨rfl, rfl⟩, rfl⟩
  have next : Run (ledgers 4096 0) ([] ++ [.strdup (some ⟨[97], by simp⟩) (some 65536)]) ⟨_, _⟩ :=
    start.next ⟨created_fresh (by decide), aligned_block (by decide), _, rfl, rfl⟩
  exact ⟨_, next, _, rfl, by decide⟩

end CprFormal.Mempager.Alignment
