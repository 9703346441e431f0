import CprFormal.Library.FirstFit
import CprFormal.Mempager.Runs

/-!
# The pager packs first fit

Between two resets the pages are loaded as first fit loads bins with the sizes that were
served, whatever was refused in between.  So a pager is more than half full as soon as it
has two pages, and one with a limit serves every request as long as the sizes asked for
come to no more than half of its pages and one more.
-/

namespace CprFormal.Mempager.FirstFit

open CprFormal.Library CprFormal.Library.FirstFit CprFormal.Library.LinkedList
open CprFormal.Library.Transition
open CprFormal.Mempager.Model CprFormal.Mempager.Safety CprFormal.Mempager.Runs

/-- The bytes of a page that have been handed out. -/
def load (s : State) (a : Nat) : Nat := s.heap.used a - sizeofPage

/-- The loads of all pages, in the order of their links. -/
def loads (s : State) : List Nat := s.heap.live.map (load s)

/-- The sizes that have been served since the last reset. -/
def served (h : History) : List Nat := h.ranges.map Range.len

/-- The bytes of a page that can be handed out. -/
def capacity (pagesize : Nat) : Nat := pagesize - sizeofPage

/-- Pages are made for allocations only. -/
def Allocates : Op → Prop
  | .request _ => False
  | _ => True

section Allocation

variable {s after : State} {size start : Nat} {block : Option Nat}

/-- Without a sum that wraps around, what fits is what the page has room for. -/
theorem fits_iff {held : List Nat} (holds : Holds s held) (bounds : Bounds s.pager)
    (admitted : size + sizeofPage ≤ s.pager.size) {a : Nat} (page : a ∈ held) :
    fits s size a = true ↔ load s a + size ≤ capacity s.pager.size := by
  have used := holds.used a page
  have small := bounds.small
  unfold fits load capacity
  rw [decide_eq_true_iff, SizeT.wrap_of_lt (by omega)]
  omega

theorem not_fits {held : List Nat} (holds : Holds s held) (bounds : Bounds s.pager)
    (admitted : size + sizeofPage ≤ s.pager.size) {a : Nat} (page : a ∈ held)
    (full : ¬ fits s size a = true) : capacity s.pager.size < load s a + size :=
  Nat.lt_of_not_le fun room => full ((fits_iff holds bounds admitted page).mpr room)

/-- Taking bytes of the first page with room is a step of first fit. -/
theorem grow_loads {held : List Nat} (holds : Holds s held) (bounds : Bounds s.pager)
    (admitted : size + sizeofPage ≤ s.pager.size) {a : Nat}
    (found : s.heap.live.find? (fits s size) = some a) :
    loads ⟨s.pager, s.heap.grow a size⟩ = place (capacity s.pager.size) (loads s) size := by
  obtain ⟨fit, before, behind, split, earlier⟩ := List.find?_eq_some_iff_append.mp found
  have live : before ++ a :: behind = held := split.symm.trans holds.live
  have page : a ∈ held := live ▸ List.mem_append_right before List.mem_cons_self
  have room := (fits_iff holds bounds admitted page).mp fit
  have distinct := holds.nodup bounds.wide
  rw [← live] at distinct
  have used := holds.used a page
  have small := bounds.small
  have unwrapped : s.heap.used a + size < 2 ^ 64 := by omega
  have others {b : Nat} (other : b ≠ a) : load ⟨s.pager, s.heap.grow a size⟩ b = load s b := by
    unfold load
    rw [grow_used unwrapped, if_neg other]
  have here : load ⟨s.pager, s.heap.grow a size⟩ a = load s a + size := by
    unfold load
    rw [grow_used unwrapped, if_pos rfl]
    exact Nat.sub_add_comm used.1
  have full : ∀ x ∈ before.map (load s), capacity s.pager.size < x + size := by
    intro x member
    obtain ⟨b, early, rfl⟩ := List.mem_map.mp member
    have earlyPage : b ∈ held := live ▸ List.mem_append_left _ early
    exact not_fits holds bounds admitted earlyPage (by simpa using earlier b early)
  unfold loads
  change (s.heap.live).map _ = _
  rw [split, List.map_append, List.map_append, List.map_cons, List.map_cons, here,
    place_first full room]
  have apart := List.nodup_append.mp distinct
  congr 1
  · refine List.map_congr_left fun b early => others ?_
    exact apart.2.2 b early a List.mem_cons_self
  · congr 1
    refine List.map_congr_left fun b late => others ?_
    rintro rfl
    exact (List.nodup_cons.mp apart.2.1).1 late

/-- Taking the first bytes of a fresh page is one, too. -/
theorem requested_loads {held : List Nat} (holds : Holds s held) (bounds : Bounds s.pager)
    (admitted : size + sizeofPage ≤ s.pager.size) {a : Nat}
    (fresh : FreshBlock s.heap s.pager.size a) (nowhere : s.heap.live.find? (fits s size) = none) :
    loads ⟨(requested s a).pager, (requested s a).heap.grow a size⟩ =
      place (capacity s.pager.size) (loads s) size := by
  have absent := holds.fresh_not_mem bounds.wide fresh
  have full : ∀ x ∈ loads s, capacity s.pager.size < x + size := by
    intro x member
    obtain ⟨b, page, rfl⟩ := List.mem_map.mp member
    have listed : b ∈ held := holds.live ▸ page
    exact not_fits holds bounds admitted listed (List.find?_eq_none.mp nowhere b page)
  have small := bounds.small
  have start : (requested s a).heap.used a = sizeofPage := by
    rw [requested_used, if_pos rfl]
  have unwrapped : (requested s a).heap.used a + size < 2 ^ 64 := by
    rw [start]
    omega
  rw [place_full full]
  unfold loads
  change (s.heap.live ++ [a]).map _ = _
  rw [List.map_append, List.map_singleton]
  congr 1
  · refine List.map_congr_left fun b page => ?_
    have other : b ≠ a := by
      rintro rfl
      exact absent (holds.live ▸ page)
    unfold load
    rw [grow_used unwrapped, if_neg other, requested_used, if_neg other]
  · unfold load
    rw [grow_used unwrapped, if_pos rfl, start, Nat.add_sub_cancel_left]

theorem alloc_loads {held : List Nat} (holds : Holds s held) (bounds : Bounds s.pager)
    (word : size + sizeofPage < 2 ^ 64) (promise : MallocPromise s block)
    (done : pagerAlloc s size block = some (after, some start)) :
    loads after = place (capacity s.pager.size) (loads s) size := by
  rcases alloc_outcome (holds.keeps bounds.wide) size block with
    ⟨call, _⟩ | ⟨a, found, admitted, call⟩ | ⟨a, nowhere, admitted, returned, _, call⟩
  · cases call.symm.trans done
  · cases call.symm.trans done
    rw [SizeT.wrap_of_lt word] at admitted
    exact grow_loads holds bounds admitted found
  · cases call.symm.trans done
    rw [SizeT.wrap_of_lt word] at admitted
    exact requested_loads holds bounds admitted (promise a returned) nowhere

/-- A refused request fits into no page, and no further page is allowed. -/
theorem alloc_refused {held : List Nat} (holds : Holds s held) (bounds : Bounds s.pager)
    (admitted : size + sizeofPage ≤ s.pager.size) {a : Nat}
    (done : pagerAlloc s size (some a) = some (after, none)) :
    (∀ x ∈ loads s, capacity s.pager.size < x + size) ∧ s.pager.limit ≠ 0 ∧
      (loads s).length = s.pager.limit := by
  have length : (loads s).length = held.length := by
    unfold loads
    rw [List.length_map, holds.live]
  have word : size + sizeofPage < 2 ^ 64 := Nat.lt_of_le_of_lt admitted bounds.wide.word
  rcases alloc_outcome (holds.keeps bounds.wide) size (some a) with
    ⟨_, refused⟩ | ⟨b, _, _, call⟩ | ⟨b, _, _, _, _, call⟩
  · obtain ⟨nowhere, failed⟩ := refused (by rwa [SizeT.wrap_of_lt word])
    have many : s.pager.limit ≠ 0 ∧ s.pager.limit ≤ s.pager.count := by
      by_contra free
      have made := request_made holds.free (a := a) fun limited =>
        Nat.lt_of_not_le fun enough => free ⟨limited, enough⟩
      have null := congrArg Prod.snd (made.symm.trans failed)
      cases null
    have most := holds.limit many.1
    have unsigned := bounds.unsigned
    have count := holds.count
    rw [Nat.mod_eq_of_lt (by omega)] at count
    refine ⟨fun x member => ?_, many.1, by omega⟩
    obtain ⟨b, page, rfl⟩ := List.mem_map.mp member
    have listed : b ∈ held := holds.live ▸ page
    exact not_fits holds bounds admitted listed (List.find?_eq_none.mp nowhere b page)
  · cases call.symm.trans done
  · cases call.symm.trans done

end Allocation

/-! ## Runs -/

section Steps

variable {pagesize : Nat} {limit : UInt32} {h after : History} {held : List Nat}

/-- The pages are loaded as first fit loads bins. -/
def Packed (pagesize : Nat) (h : History) : Prop :=
  loads h.state = pack (capacity pagesize) (served h)

theorem init_packed (init : (system pagesize limit).init h) : Packed pagesize h := by
  unfold Packed loads served
  rw [init.2.1, init.2.2]
  rfl

theorem alloc_packed (inv : Inv pagesize limit h held) (bounds : Bounds h.state.pager)
    (packed : Packed pagesize h) {size : Nat} (word : size + sizeofPage < 2 ^ 64)
    {block result : Option Nat} (promise : MallocPromise h.state block) {s : State}
    (done : pagerAlloc h.state size block = some (s, result)) :
    Packed pagesize ⟨s, h.ranges ++ (result.map fun start => ⟨start, size⟩).toList⟩ := by
  unfold Packed served
  cases result with
  | none =>
      rcases alloc_inv inv bounds word promise with failed | ⟨_, _, _, call, _⟩
      · cases failed.symm.trans done
        rw [Option.map_none, Option.toList_none, List.append_nil]
        exact packed
      · cases call.symm.trans done
  | some start =>
      rw [Option.map_some, Option.toList_some, List.map_append, List.map_singleton, pack_snoc,
        alloc_loads inv.holds bounds word promise done, inv.size]
      exact congrArg (fun bins => place _ bins size) packed

theorem step_packed (inv : Inv pagesize limit h held) (bounds : Bounds h.state.pager)
    (packed : Packed pagesize h) {op : Op} (promised : Promised h.state op)
    (allocates : Allocates op) {result : Option Nat} (stepped : step h op = some (after, result)) :
    Packed pagesize after := by
  obtain ⟨⟨s, returned⟩, call, same⟩ := Option.map_eq_some_iff.mp stepped
  cases same
  cases op with
  | alloc size block => exact alloc_packed inv bounds packed promised.1 promised.2 call
  | request block => exact allocates.elim
  | strdup str block =>
      obtain ⟨allocated, bytes, made, rfl⟩ := strdup_allocates call
      have next := alloc_packed inv bounds packed (strdupSize_small promised.1) promised.2 made
      exact next
  | reset =>
      obtain ⟨cleared, made, init, _⟩ := step_reset inv bounds
      cases made.symm.trans stepped
      exact init_packed init

theorem run_packed (header : sizeofPage ≤ pagesize) (small : pagesize < 2 ^ 63) {trace : List Op}
    (run : Run ((system pagesize limit).restrict fun _ op => Allocates op) trace h) :
    Packed pagesize h := by
  induction run with
  | start init => exact init_packed init
  | next earlier step ih =>
      obtain ⟨⟨promised, result, stepped⟩, allocates⟩ := step
      obtain ⟨held, inv⟩ := run_inv header small earlier.relax
      exact step_packed inv (inv.bounds header small) ih promised allocates stepped

end Steps

/-- The pages of a pager that packs first fit. -/
structure Packs (pagesize limit : Nat) (h : History) : Prop where
  linked : Linked h.state.heap.next h.state.heap.prev none h.state.pager.head h.state.heap.live
    h.state.pager.tail
  packed : loads h.state = pack (capacity pagesize) (served h)
  half : 2 ≤ h.state.heap.live.length →
    h.state.heap.live.length * capacity pagesize < 2 * (served h).sum
  serves : ∀ size block, size + sizeofPage ≤ pagesize → MallocPromise h.state (some block) →
    (limit ≠ 0 → 2 * ((served h).sum + size) ≤ (limit + 1) * capacity pagesize) →
    ∃ after start, pagerAlloc h.state size (some block) = some (after, some start)

/-- After every run of allocations, duplications and resets the pages from `head` are
loaded as first fit loads bins with the sizes served since the last reset; two pages or
more are more than half full, and a request is served, when `malloc` serves it, as long as
with it at most half of all pages the limit allows, and of one more, are asked for. -/
theorem pager_packs (pagesize : Nat) (limit : UInt32) (header : sizeofPage ≤ pagesize)
    (small : pagesize < 2 ^ 63) {trace : List Op} {h : History}
    (run : Run ((system pagesize limit).restrict fun _ op => Allocates op) trace h) :
    Packs pagesize limit.toNat h := by
  obtain ⟨held, inv⟩ := run_inv header small run.relax
  have bounds := inv.bounds header small
  have packed := run_packed header small run
  have length : h.state.heap.live.length = (pack (capacity pagesize) (served h)).length := by
    rw [← packed]
    exact (List.length_map ..).symm
  refine ⟨inv.holds.live.symm ▸ inv.holds.linked, packed, fun two => ?_, ?_⟩
  · rw [length] at two ⊢
    exact pack_half (served h) two
  · intro size block admitted promise room
    have fitting : size + sizeofPage ≤ h.state.pager.size := inv.size.symm ▸ admitted
    have word : size + sizeofPage < 2 ^ 64 := Nat.lt_of_le_of_lt fitting bounds.wide.word
    rcases alloc_inv inv bounds word promise with failed | ⟨after, _, start, done, _⟩
    · obtain ⟨full, limited, pages⟩ := alloc_refused inv.holds bounds fitting failed
      rw [inv.size, packed] at full
      rw [inv.limit] at limited pages
      rw [packed] at pages
      have opened : pack (capacity pagesize) (served h) ≠ [] := fun empty => by
        rw [empty] at pages
        exact limited pages.symm
      have more := refused_half opened full
      rw [pages] at more
      exact absurd (room limited) (Nat.not_le.mpr more)
    · exact ⟨after, start, done⟩

theorem next_alloc {pagesize : Nat} {limit : UInt32} {trace : List Op} {h after : History}
    {result : Option Nat}
    (run : Run ((system pagesize limit).restrict fun _ op => Allocates op) trace h) (size : Nat)
    (block : Option Nat) (word : size + sizeofPage < 2 ^ 64)
    (promise : MallocPromise h.state block)
    (done : step h (.alloc size block) = some (after, result)) :
    Run ((system pagesize limit).restrict fun _ op => Allocates op) (trace ++ [.alloc size block])
      after :=
  run.next ⟨⟨⟨word, promise⟩, result, done⟩, trivial⟩

/-- The second request needs a page of its own, the third one goes behind the first. -/
theorem pager_packs_third :
    ∃ h, loads h.state = [35, 20] ∧ served h = [30, 20, 5] ∧ Packs 64 3 h := by
  have start : Run ((system 64 3).restrict fun _ op => Allocates op) []
      ⟨⟨pagerCreate 64 3, ⟨fun _ => ⟨none, none, 0⟩, fun _ => 0, [], []⟩⟩, []⟩ :=
    .start ⟨rfl, rfl, rfl⟩
  have first := next_alloc start 30 (some 4096) (by decide) (by
    rintro a ⟨⟩
    exact ⟨by decide, by simp⟩) rfl
  have second := next_alloc first 20 (some 8192) (by decide) (by
    rintro a ⟨⟩
    refine ⟨by decide, fun b member => ?_⟩
    cases List.mem_singleton.mp member
    exact .inl (by decide)) rfl
  have third := next_alloc second 5 none (by decide) (by rintro a ⟨⟩) rfl
  exact ⟨_, rfl, rfl, pager_packs 64 3 (by decide) (by decide) third⟩

end CprFormal.Mempager.FirstFit
