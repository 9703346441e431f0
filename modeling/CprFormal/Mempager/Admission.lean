import CprFormal.Mempager.Runs

/-!
# Which requests the page allocator admits

`pager_alloc` adds the size that is asked for to the header and to what a page has
used, both modulo `2 ^ 64`, and compares the sums with the page size.  A request is
admitted exactly unless one of the sums wraps around: then memory is handed out that
no page has, and the page counts fewer bytes as used than before.
-/

namespace CprFormal.Mempager.Admission

open CprFormal.Library CprFormal.Library.LinkedList CprFormal.Library.Transition
open CprFormal.Mempager.Model CprFormal.Mempager.Safety CprFormal.Mempager.Runs

/-- The bytes used of a page when it is asked; of a new one, those of the header. -/
def usedBefore (s : State) (a : Nat) : Nat :=
  if a ∈ s.heap.live then s.heap.used a else sizeofPage

/-- A request that returns memory fits into a page as an exact number and is added to
what a page has used; no page counts fewer bytes than before. -/
structure Exact (s : State) (size : Nat) (after : State) (result : Option Nat) : Prop where
  admitted : ∀ start, result = some start → size ≤ s.pager.size - sizeofPage ∧
    ∃ a ∈ after.heap.live, start = a + usedBefore s a ∧
      after.heap.used a = usedBefore s a + size ∧ after.heap.used a ≤ s.pager.size
  kept : ∀ a ∈ s.heap.live, s.heap.used a ≤ after.heap.used a

/-- The size does not wrap around with a header, unless there is no page and none is
made; and if it fits into a page, it does not wrap around with what a page has used. -/
structure NoWrap (s : State) (size : Nat) (block : Option Nat) : Prop where
  header : size + sizeofPage < 2 ^ 64 ∨ s.heap.live = [] ∧ block = none
  pages : size + sizeofPage ≤ s.pager.size → ∀ a ∈ s.heap.live, s.heap.used a + size < 2 ^ 64

/-- The same of a call, for the size it hands to `pager_alloc`. -/
def NoWrapCall (s : State) (op : Op) : Prop :=
  ∀ size, sizeAsked s op = some size → NoWrap s size (blockOf op)

/-- What holds between calls that do not wrap around. -/
structure Inv (pagesize : Nat) (limit : UInt32) (s : State) : Prop where
  size : s.pager.size = pagesize
  limit : s.pager.limit = limit.toNat
  holds : Holds s s.heap.live
  space : ∀ a ∈ s.heap.live, a + pagesize ≤ 2 ^ 64

section Calls

variable {pagesize : Nat} {limit : UInt32} {s : State}

theorem Inv.wide (inv : Inv pagesize limit s) (header : sizeofPage ≤ pagesize)
    (word : pagesize < 2 ^ 64) : Wide s.pager where
  header := by rwa [inv.size]
  word := by rwa [inv.size]
  unsigned := by
    rw [inv.limit]
    exact limit.toNat_lt

/-- Bytes of a page with room keep the invariant. -/
theorem grow_inv (inv : Inv pagesize limit s) (wide : Wide s.pager) {a size : Nat}
    (fit : s.heap.used a + size ≤ s.pager.size) :
    Inv pagesize limit ⟨s.pager, s.heap.grow a size⟩ :=
  ⟨inv.size, inv.limit, grow_holds inv.holds wide fit, inv.space⟩

/-- A new page keeps the invariant. -/
theorem requested_inv (inv : Inv pagesize limit s) (wide : Wide s.pager) {a : Nat}
    (fresh : FreshBlock s.heap s.pager.size a)
    (room : s.pager.limit ≠ 0 → s.pager.count < s.pager.limit) :
    Inv pagesize limit (requested s a) := by
  refine ⟨inv.size, inv.limit, requested_holds inv.holds wide fresh room, fun b member => ?_⟩
  rcases List.mem_append.mp member with old | new
  · exact inv.space b old
  · rw [List.mem_singleton.mp new, ← inv.size]
    exact fresh.1

/-- A request that fails without a trace is exact. -/
theorem exact_none (s : State) (size : Nat) : Exact s size s none where
  admitted := by
    rintro start ⟨⟩
  kept _ _ := Nat.le_refl _

theorem exact_grow (wide : Wide s.pager) {a size : Nat} (member : a ∈ s.heap.live)
    (header : sizeofPage ≤ s.heap.used a) (fit : s.heap.used a + size ≤ s.pager.size) :
    Exact s size ⟨s.pager, s.heap.grow a size⟩ (some (a + s.heap.used a)) := by
  have grown := grow_used (Nat.lt_of_le_of_lt fit wide.word)
  have before : usedBefore s a = s.heap.used a := if_pos member
  constructor
  · rintro start ⟨⟩
    refine ⟨by omega, a, member, by rw [before], ?_, ?_⟩
    · rw [before]
      exact (grown a).trans (if_pos rfl)
    · change (s.heap.grow a size).used a ≤ _
      rwa [grown a, if_pos rfl]
  · intro b _
    change _ ≤ (s.heap.grow a size).used b
    rw [grown b]
    split
    · rename_i here
      subst here
      exact Nat.le_add_right _ _
    · exact Nat.le_refl _

theorem exact_requested (wide : Wide s.pager) {a size : Nat} (absent : a ∉ s.heap.live)
    (fit : sizeofPage + size ≤ s.pager.size) :
    Exact s size ⟨(requested s a).pager, (requested s a).heap.grow a size⟩
      (some (a + sizeofPage)) := by
  have first : (requested s a).heap.used a = sizeofPage := by
    rw [requested_used, if_pos rfl]
  have word := wide.word
  have grown (b : Nat) : ((requested s a).heap.grow a size).used b =
      if b = a then (requested s a).heap.used a + size else (requested s a).heap.used b :=
    grow_used (by omega) b
  have before : usedBefore s a = sizeofPage := if_neg absent
  constructor
  · rintro start ⟨⟩
    refine ⟨by omega, a, List.mem_append_right _ (List.mem_singleton_self a), by rw [before], ?_, ?_⟩
    · rw [before]
      exact (grown a).trans ((if_pos rfl).trans (congrArg (· + size) first))
    · change ((requested s a).heap.grow a size).used a ≤ _
      rwa [grown a, if_pos rfl, first]
  · intro b member
    change _ ≤ ((requested s a).heap.grow a size).used b
    have other : b ≠ a := fun same => absent (same ▸ member)
    rw [grown b, if_neg other, requested_used, if_neg other]

/-- A request that does not wrap around is exact and keeps the invariant. -/
theorem alloc_exact (inv : Inv pagesize limit s) (wide : Wide s.pager) {size : Nat}
    {block : Option Nat} (noWrap : NoWrap s size block) (fresh : NewBlock s block) :
    ∃ after result, pagerAlloc s size block = some (after, result) ∧
      Inv pagesize limit after ∧ Exact s size after result := by
  rcases noWrap.header with small | ⟨empty, failed⟩
  · rcases alloc_cases inv.holds wide small noWrap.pages block with
      call | ⟨a, member, fit, call⟩ | ⟨a, returned, room, fit, call⟩
    · exact ⟨s, none, call, inv, exact_none s size⟩
    · have header := (inv.holds.used a member).1
      exact ⟨_, _, call, grow_inv inv wide fit, exact_grow wide member header fit⟩
    · obtain ⟨block_, absent⟩ := fresh a returned
      have next := requested_inv inv wide block_ room
      have first : (requested s a).heap.used a = sizeofPage := by
        rw [requested_used, if_pos rfl]
      refine ⟨_, _, call, ?_, exact_requested wide absent fit⟩
      exact grow_inv next ⟨wide.header, wide.word, wide.unsigned⟩ (by rwa [first])
  · rcases alloc_outcome (inv.holds.keeps wide) size block with
      ⟨call, _⟩ | ⟨a, found, _, _⟩ | ⟨a, _, _, returned, _, _⟩
    · exact ⟨s, none, call, inv, exact_none s size⟩
    · rw [empty] at found
      cases found
    · rw [failed] at returned
      cases returned

/-! ## Requests that wrap around -/

/-- A sum that wraps around is small enough for every page. -/
theorem fits_wrapped {a size : Nat} (used : s.heap.used a ≤ s.pager.size) (word : size < 2 ^ 64)
    (wide : Wide s.pager) (wraps : 2 ^ 64 ≤ s.heap.used a + size) :
    fits s size a = true ∧ SizeT.wrap (s.heap.used a + size) < s.heap.used a := by
  have bound := wide.word
  have sum : SizeT.wrap (s.heap.used a + size) = s.heap.used a + size - 2 ^ 64 := by
    unfold SizeT.wrap
    rw [Nat.mod_eq_sub_mod wraps, Nat.mod_eq_of_lt (by omega)]
  unfold fits
  rw [sum, decide_eq_true_eq]
  omega

/-- An exact request does not wrap around with the header of a page. -/
theorem exact_header (inv : Inv pagesize limit s) (wide : Wide s.pager) {size : Nat}
    (word : size < 2 ^ 64) {block result : Option Nat} {after : State}
    (call : pagerAlloc s size block = some (after, result)) (exact_ : Exact s size after result) :
    size + sizeofPage < 2 ^ 64 ∨ s.heap.live = [] ∧ block = none := by
  by_contra wraps
  rw [not_or] at wraps
  obtain ⟨large, some_⟩ := wraps
  have bound := wide.word
  have header := wide.header
  have admitted : SizeT.wrap (size + sizeofPage) ≤ s.pager.size := by
    unfold SizeT.wrap
    rw [Nat.mod_eq_sub_mod (Nat.le_of_not_lt large), Nat.mod_eq_of_lt (by omega)]
    omega
  cases result with
  | some start =>
      have small := (exact_.admitted start rfl).1
      omega
  | none =>
      rcases alloc_outcome (inv.holds.keeps wide) size block with
        ⟨_, nothing⟩ | ⟨_, _, _, done⟩ | ⟨_, _, _, _, _, done⟩
      · obtain ⟨nowhere, refused⟩ := nothing admitted
        cases pages : s.heap.live with
        | nil =>
            cases block with
            | none => exact some_ ⟨pages, rfl⟩
            | some a =>
                have count : s.pager.count = 0 := by
                  rw [inv.holds.count, pages]
                  rfl
                have made := request_made inv.holds.free
                  (fun limited => count ▸ Nat.pos_of_ne_zero limited) a
                cases congrArg Prod.snd (made.symm.trans refused)
        | cons a rest =>
            have member : a ∈ s.heap.live := pages ▸ List.mem_cons_self
            have used := inv.holds.used a member
            have fit := (fits_wrapped used.2 word wide (by omega)).1
            exact List.find?_eq_none.mp nowhere a member fit
      · cases done.symm.trans call
      · cases done.symm.trans call

/-- Of pages that are larger than half of the address space there is only one. -/
theorem page_unique (inv : Inv pagesize limit s) (large : 2 ^ 64 < 2 * pagesize) {a b : Nat}
    (here : a ∈ s.heap.live) (there : b ∈ s.heap.live) : a = b := by
  by_contra different
  have first := inv.space a here
  have second := inv.space b there
  have apart := inv.holds.apart.forall here there different
  rw [inv.size] at apart
  rcases apart with before | behind
  · omega
  · omega

/-- An exact request does not wrap around with what a page has used. -/
theorem exact_pages (inv : Inv pagesize limit s) (wide : Wide s.pager) {size : Nat}
    (word : size < 2 ^ 64) {block result : Option Nat} {after : State}
    (call : pagerAlloc s size block = some (after, result)) (exact_ : Exact s size after result)
    (fit : size + sizeofPage ≤ s.pager.size) :
    ∀ a ∈ s.heap.live, s.heap.used a + size < 2 ^ 64 := by
  intro a member
  by_contra wraps
  have used := (inv.holds.used a member).2
  obtain ⟨room, less⟩ := fits_wrapped used word wide (Nat.le_of_not_lt wraps)
  have admitted : SizeT.wrap (size + sizeofPage) ≤ s.pager.size := by
    rwa [SizeT.wrap_of_lt (Nat.lt_of_le_of_lt fit wide.word)]
  have somewhere : s.heap.live.find? (fits s size) ≠ none := fun nowhere =>
    List.find?_eq_none.mp nowhere a member room
  rcases alloc_outcome (inv.holds.keeps wide) size block with
    ⟨_, nothing⟩ | ⟨b, found, _, done⟩ | ⟨_, nowhere, _, _, _, _⟩
  · exact somewhere (nothing admitted).1
  · have large : 2 ^ 64 < 2 * pagesize := by
      have size_ := inv.size
      unfold sizeofPage at fit
      omega
    have only := page_unique inv large (List.mem_of_find?_eq_some found) member
    subst only
    cases done.symm.trans call
    have kept := exact_.kept b member
    have after_ : (s.heap.grow b size).used b = SizeT.wrap (s.heap.used b + size) := by
      unfold Heap.used
      rw [grow_page, if_pos rfl]
      rfl
    change _ ≤ (s.heap.grow b size).used b at kept
    omega
  · exact somewhere nowhere

/-- A request is exact exactly when it does not wrap around. -/
theorem alloc_exact_iff (inv : Inv pagesize limit s) (wide : Wide s.pager) {size : Nat}
    (word : size < 2 ^ 64) {block : Option Nat} (fresh : NewBlock s block) :
    (∃ after result, pagerAlloc s size block = some (after, result) ∧
      Exact s size after result) ↔ NoWrap s size block := by
  constructor
  · rintro ⟨after, result, call, exact_⟩
    exact ⟨exact_header inv wide word call exact_, exact_pages inv wide word call exact_⟩
  · intro noWrap
    obtain ⟨after, result, call, _, exact_⟩ := alloc_exact inv wide noWrap fresh
    exact ⟨after, result, call, exact_⟩

theorem init_inv (init : (anySizes pagesize limit).init s) : Inv pagesize limit s := by
  obtain ⟨created, live⟩ := init
  refine ⟨by rw [created]; rfl, by rw [created]; rfl, ?_, by simp [live]⟩
  rw [live]
  refine ⟨?_, by rw [created]; rfl, live, List.Pairwise.nil, by simp, by rw [created]; rfl, by simp⟩
  rw [created]
  exact ⟨rfl, rfl⟩

/-- A call that does not wrap around keeps the invariant. -/
theorem perform_inv (inv : Inv pagesize limit s) (wide : Wide s.pager) {op : Op}
    (fresh : NewBlock s (blockOf op)) (noWrap : NoWrapCall s op) {after : State}
    {result : Option Nat} (done : perform s op = some (after, result)) :
    Inv pagesize limit after := by
  cases op with
  | alloc size block =>
      obtain ⟨_, _, call, next, _⟩ := alloc_exact inv wide (noWrap size rfl) fresh
      cases call.symm.trans done
      exact next
  | request block =>
      have call : pagerRequest s block = (after, result) := Option.some_inj.mp done
      rcases request_cases inv.holds.free block with failed | ⟨a, returned, room, made⟩
      · cases failed.symm.trans call
        exact inv
      · cases made.symm.trans call
        exact requested_inv inv wide (fresh a returned).1 room
  | strdup str block =>
      obtain ⟨allocated, bytes, call, rfl⟩ := strdup_allocates done
      obtain ⟨_, _, same, next, _⟩ := alloc_exact inv wide (noWrap _ rfl) fresh
      cases same.symm.trans call
      exact ⟨next.size, next.limit, { next.holds with }, next.space⟩
  | reset =>
      obtain ⟨cleared, call, created, live, _⟩ := reset_done (inv.holds.keeps wide)
      have same : perform s .reset = some (cleared, none) := by
        unfold perform
        rw [call]
        rfl
      cases same.symm.trans done
      rw [inv.size, inv.limit] at created
      exact init_inv ⟨created, live⟩

theorem run_inv (header : sizeofPage ≤ pagesize) (word : pagesize < 2 ^ 64) {trace : List Op}
    (run : Run ((anySizes pagesize limit).restrict NoWrapCall) trace s) :
    Inv pagesize limit s := by
  refine run.invariant (fun _ s => Inv pagesize limit s) ?_ ?_
  · exact fun s init => init_inv init
  · rintro trace s op after inv ⟨⟨fresh, result, done⟩, noWrap⟩
    exact perform_inv inv (inv.wide header word) fresh noWrap done

end Calls

/-- After every run of calls that do not wrap around, the next request is exact exactly
when it does not wrap around either. -/
theorem pager_alloc_exact_iff (pagesize : Nat) (limit : UInt32) (header : sizeofPage ≤ pagesize)
    (word : pagesize < 2 ^ 64) {trace : List Op} {s : State}
    (run : Run ((anySizes pagesize limit).restrict NoWrapCall) trace s) {size : Nat}
    (asked : size < 2 ^ 64) {block : Option Nat} (fresh : NewBlock s block) :
    (∃ after result, pagerAlloc s size block = some (after, result) ∧
      Exact s size after result) ↔ NoWrap s size block := by
  have inv := run_inv header word run
  exact alloc_exact_iff inv (inv.wide header word) asked fresh

/-- A pager just created, over memory whose bytes are all clear. -/
def created (pagesize : Nat) (limit : UInt32) : State :=
  ⟨pagerCreate pagesize limit.toNat, ⟨fun _ => ⟨none, none, 0⟩, fun _ => 0, [], []⟩⟩

/-- What `malloc` promises of the first block of such a pager. -/
theorem created_fresh {pagesize : Nat} {limit : UInt32} {a : Nat} (inside : a + pagesize ≤ 2 ^ 64) :
    NewBlock (created pagesize limit) (some a) := by
  rintro b ⟨⟩
  exact ⟨⟨inside, fun c member => by cases member⟩, List.not_mem_nil⟩

/-- The first request of a new pager, for 100 bytes. -/
theorem pager_alloc_exact_first :
    ∃ after result, pagerAlloc (created 4096 0) 100 (some 65536) = some (after, result) ∧
      Exact (created 4096 0) 100 after result := by
  exact (pager_alloc_exact_iff 4096 0 (by decide) (by decide) (.start ⟨rfl, rfl⟩) (by decide)
    (created_fresh (by decide))).mpr ⟨.inl (by decide), fun _ a member => by cases member⟩

/-- A request for `2 ^ 64 - 24` bytes is admitted: it returns memory of a page and
takes the used bytes of that page back to none. -/
theorem pager_alloc_wraps :
    ∃ s, Run (anySizes 4096 0) [.request (some 65536)] s ∧
      ∃ after, pagerAlloc s (2 ^ 64 - 24) none = some (after, some (65536 + 24)) ∧
        s.heap.used 65536 = 24 ∧ after.heap.used 65536 = 0 ∧
        ¬ Exact s (2 ^ 64 - 24) after (some (65536 + 24)) := by
  have start : Run (anySizes 4096 0) [] (created 4096 0) := .start ⟨rfl, rfl⟩
  have fresh : NewBlock (created 4096 0) (some 65536) := created_fresh (by decide)
  refine ⟨_, start.next ⟨fresh, _, rfl⟩, _, rfl, rfl, rfl, fun exact_ => ?_⟩
  have small := (exact_.admitted _ rfl).1
  exact absurd small (by decide)

end CprFormal.Mempager.Admission
