import Mathlib.Data.Multiset.AddSub
import Mathlib.Data.UInt
import CprFormal.Library.SizeT
import CprFormal.Library.Transition

/-!
# The shared references of `memory.c`

A `memshare_t` points to a block with a reference count in front.  Every operation on
the block is one atomic step.  The references that are live are counted by the multiset
of their owners, and the count in the block is the size of that multiset; so the
release that finds a count of one is the one that gives up the last reference.
-/

namespace CprFormal.Memshare.Sharing

open CprFormal.Library CprFormal.Library.Transition

/-- `sizeof(struct _memshare)` -/
def sizeofMemshare : Nat := 4

/-- The `refcount` of a block; a block that has been freed has none. -/
structure Block where
  refcount : Option UInt32
  deriving DecidableEq

/-- `cpr_makeref`; `malloc` tells whether it gives a block of that many bytes. -/
def cprMakeref (size : UInt64) (malloc : Nat → Bool) : Option Block :=
  if malloc (SizeT.wrap (sizeofMemshare + size.toNat)) then some ⟨some 1⟩ else none

/-- What an operation returns: the pointer it was given, `NULL`, or a count. -/
inductive Answer where
  | pointer
  | null
  | count (n : UInt32)
  deriving DecidableEq

/-- `cpr_count`; like the other operations it has no meaning on a freed block. -/
def cprCount (ptr : Block) : Option (Block × Answer) :=
  ptr.refcount.map fun n => (ptr, .count n)

/-- `cpr_retain` -/
def cprRetain (ptr : Block) : Option (Block × Answer) :=
  ptr.refcount.map fun n => (⟨some (n + 1)⟩, .pointer)

/-- `cpr_release` tests the value before the subtraction. -/
def cprRelease (ptr : Block) : Option (Block × Answer) :=
  ptr.refcount.map fun n =>
    if n = 1 then (⟨none⟩, .null) else (⟨some (n - 1)⟩, .pointer)

/-- The count of a block that has not been freed. -/
theorem cprCount_eq {ptr : Block} {n : UInt32} (allocated : ptr.refcount = some n) :
    cprCount ptr = some (ptr, .count n) := by
  simp [cprCount, allocated]

/-- The operations of the holders.  A retain makes a reference for any holder. -/
inductive Op (τ : Type) where
  | count (holder : τ)
  | retain (holder other : τ)
  | release (holder : τ)
  deriving DecidableEq

variable {τ : Type} [DecidableEq τ]

namespace Op

/-- The holder that performs the operation. -/
def holder : Op τ → τ
  | count t | retain t _ | release t => t

def perform (ptr : Block) : Op τ → Option (Block × Answer)
  | count _ => cprCount ptr
  | retain _ _ => cprRetain ptr
  | release _ => cprRelease ptr

/-- The owners of the live references after the operation. -/
def owners (op : Op τ) (before : Multiset τ) : Multiset τ :=
  match op with
  | count _ => before
  | retain _ other => other ::ₘ before
  | release t => before.erase t

end Op

/-- The block and the owners of its live references. -/
structure State (τ : Type) where
  block : Block
  owners : Multiset τ

/-- A holder works on the block only while it owns a reference, and there is never a
reference too many for the counter. -/
def Permitted (s : State τ) (op : Op τ) : Prop :=
  op.holder ∈ s.owners ∧ Multiset.card (op.owners s.owners) < 2 ^ 32

instance (s : State τ) (op : Op τ) : Decidable (Permitted s op) :=
  inferInstanceAs (Decidable (_ ∧ _))

/-- All holders of type `τ`, one of which has made the block. -/
def system (τ : Type) [DecidableEq τ] : System (State τ) (Op τ × Answer) where
  init s := ∃ size malloc creator, cprMakeref size malloc = some s.block ∧ s.owners = {creator}
  step s event s' := Permitted s event.1 ∧
    event.1.perform s.block = some (s'.block, event.2) ∧ s'.owners = event.1.owners s.owners

/-- The number of releases that returned `NULL`. -/
def freed (trace : List (Op τ × Answer)) : Nat := trace.countP (·.2 = .null)

/-- The count in the block is the number of live references, and the block is freed
when there are none. -/
def Counted (s : State τ) : Prop :=
  match s.block.refcount with
  | some n => n.toNat = Multiset.card s.owners ∧ s.owners ≠ 0
  | none => s.owners = 0

omit [DecidableEq τ] in
theorem Counted.of_some {s : State τ} (counted : Counted s) {n : UInt32}
    (allocated : s.block.refcount = some n) :
    n.toNat = Multiset.card s.owners ∧ s.owners ≠ 0 := by
  unfold Counted at counted
  rwa [allocated] at counted

omit [DecidableEq τ] in
/-- A block with an owner has not been freed. -/
theorem Counted.allocated {s : State τ} (counted : Counted s) {t : τ} (owns : t ∈ s.owners) :
    ∃ n, s.block.refcount = some n := by
  unfold Counted at counted
  cases found : s.block.refcount with
  | some n => exact ⟨n, rfl⟩
  | none =>
      rw [found] at counted
      rw [counted] at owns
      exact absurd owns (Multiset.notMem_zero t)

/-- What a permitted operation does: it finds the block, leaves a count that is right
again, and returns `NULL` exactly when it releases the last reference.  `cpr_count`
answers the number of live references, and nothing else answers a count. -/
structure Performed (s : State τ) (op : Op τ) (block : Block) (answer : Answer) : Prop where
  done : op.perform s.block = some (block, answer)
  counted : Counted ⟨block, op.owners s.owners⟩
  null : answer = .null ↔ (∃ t, op = .release t) ∧ Multiset.card s.owners = 1
  freed : answer = .null ↔ block.refcount = none
  count : ∀ t, op = .count t → ∃ n, answer = .count n ∧ n.toNat = Multiset.card s.owners
  reference : (∀ t, op ≠ .count t) → answer = .pointer ∨ answer = .null

theorem retain_performed {s : State τ} {n : UInt32} (allocated : s.block.refcount = some n)
    (right : n.toNat = Multiset.card s.owners) {t other : τ}
    (room : Multiset.card s.owners + 1 < 2 ^ 32) :
    Performed s (.retain t other) ⟨some (n + 1)⟩ .pointer where
  done := by
    unfold Op.perform cprRetain
    rw [allocated]
    rfl
  counted := by
    have sum : (n + 1).toNat = n.toNat + 1 := by
      rw [UInt32.toNat_add, UInt32.toNat_one]
      omega
    refine ⟨?_, Multiset.cons_ne_zero⟩
    change _ = Multiset.card (other ::ₘ s.owners)
    rw [sum, right, Multiset.card_cons]
  null := by simp
  freed := by simp
  count := by simp
  reference _ := .inl rfl

theorem release_performed {s : State τ} {n : UInt32} (allocated : s.block.refcount = some n)
    (right : n.toNat = Multiset.card s.owners) {t : τ} (owns : t ∈ s.owners) :
    ∃ block answer, Performed s (.release t) block answer := by
  have left := Multiset.card_erase_add_one owns
  by_cases last : n = 1
  · have one : Multiset.card s.owners = 1 := by
      rw [← right, last]
      rfl
    refine ⟨⟨none⟩, .null, ?_, ?_, ?_, ?_, by simp, fun _ => .inr rfl⟩
    · simp [Op.perform, cprRelease, allocated, last]
    · exact Multiset.card_eq_zero.mp (show Multiset.card (s.owners.erase t) = 0 by omega)
    · exact ⟨fun _ => ⟨⟨t, rfl⟩, one⟩, fun _ => rfl⟩
    · exact ⟨fun _ => rfl, fun _ => rfl⟩
  · have several : Multiset.card s.owners ≠ 1 := by
      rw [← right]
      exact fun one => last (UInt32.toNat_inj.mp one)
    have positive : 1 < n.toNat := by omega
    have difference : (n - 1).toNat = n.toNat - 1 := by
      rw [UInt32.toNat_sub_of_le]
      · rfl
      · exact UInt32.le_iff_toNat_le.mpr (Nat.le_of_lt positive)
    refine ⟨⟨some (n - 1)⟩, .pointer, ?_, ?_, ?_, ?_, by simp, fun _ => .inl rfl⟩
    · simp [Op.perform, cprRelease, allocated, last]
    · have rest : Multiset.card (s.owners.erase t) = n.toNat - 1 := by omega
      refine ⟨difference.trans rest.symm, fun none => ?_⟩
      rw [show s.owners.erase t = 0 from none, Multiset.card_zero] at rest
      omega
    · simp [several]
    · simp

/-- An operation by an owner finds the block and keeps the count. -/
theorem op_performed {s : State τ} (counted : Counted s) {op : Op τ}
    (permitted : Permitted s op) : ∃ block answer, Performed s op block answer := by
  obtain ⟨owns, room⟩ := permitted
  obtain ⟨n, allocated⟩ := counted.allocated owns
  obtain ⟨right, some_owner⟩ := counted.of_some allocated
  cases op with
  | count t =>
      exact ⟨s.block, .count n, cprCount_eq allocated, counted, by simp, by simp [allocated],
        fun _ _ => ⟨n, rfl, right⟩, fun other => absurd rfl (other t)⟩
  | retain t other =>
      have space : Multiset.card s.owners + 1 < 2 ^ 32 := by
        rwa [← Multiset.card_cons other]
      exact ⟨_, _, retain_performed allocated right space⟩
  | release t => exact release_performed allocated right owns

/-! ## Runs -/

/-- The count is right, and as many releases have returned `NULL` as the block has
been freed. -/
structure Inv (trace : List (Op τ × Answer)) (s : State τ) : Prop where
  counted : Counted s
  freed : freed trace = if s.block.refcount = none then 1 else 0

theorem init_inv {s : State τ} (made : (system τ).init s) : Inv [] s := by
  obtain ⟨size, malloc, creator, made, owners⟩ := made
  unfold cprMakeref at made
  split at made
  · have block : s.block = ⟨some 1⟩ := (Option.some.inj made).symm
    refine ⟨?_, ?_⟩
    · unfold Counted
      rw [block, owners]
      exact ⟨rfl, Multiset.singleton_ne_zero creator⟩
    · rw [block]
      rfl
  · cases made

theorem step_inv {trace : List (Op τ × Answer)} {s s' : State τ} {event : Op τ × Answer}
    (inv : Inv trace s) (stepped : (system τ).step s event s') :
    Inv (trace ++ [event]) s' := by
  obtain ⟨permitted, performed, owners⟩ := stepped
  obtain ⟨n, allocated⟩ := inv.counted.allocated permitted.1
  obtain ⟨block, answer, done, counted, _, freeing, _⟩ := op_performed inv.counted permitted
  rw [done] at performed
  obtain ⟨rfl, rfl⟩ := Prod.mk.inj (Option.some.inj performed)
  refine ⟨?_, ?_⟩
  · rw [← owners] at counted
    exact counted
  · have before : freed trace = 0 := by
      rw [inv.freed, allocated]
      rfl
    unfold freed at before ⊢
    rw [List.countP_append, before, Nat.zero_add, List.countP_singleton]
    simp only [decide_eq_true_eq, freeing]

/-- After every run of the holders: the count in the block is the number of live
references, and `cpr_count` answers it as long as there are any; the block has been
freed, by one release, exactly when there are none; and the next operation of an owner
finds the block, and returns `NULL` exactly when it releases the last reference. -/
theorem shared_block_freed_once {trace : List (Op τ × Answer)} {s : State τ}
    (run : Run (system τ) trace s) :
    (∀ n, s.block.refcount = some n → n.toNat = Multiset.card s.owners) ∧
    (s.owners ≠ 0 → ∃ n, cprCount s.block = some (s.block, .count n) ∧
      n.toNat = Multiset.card s.owners) ∧
    (s.block.refcount = none ↔ s.owners = 0) ∧
    freed trace = (if s.owners = 0 then 1 else 0) ∧
    ∀ op, Permitted s op → ∃ block answer, Performed s op block answer := by
  have inv : Inv trace s := Run.invariant Inv (fun _ => init_inv)
    (fun _ _ _ _ inv stepped => step_inv inv stepped) run
  have gone : s.block.refcount = none ↔ s.owners = 0 := by
    have counted := inv.counted
    unfold Counted at counted
    cases found : s.block.refcount with
    | some n =>
        rw [found] at counted
        simp [counted.2]
    | none =>
        rw [found] at counted
        simp [counted]
  refine ⟨fun n allocated => (inv.counted.of_some allocated).1, fun some_owner => ?_, gone, ?_,
    fun op permitted => op_performed inv.counted permitted⟩
  · obtain ⟨n, allocated⟩ := Option.ne_none_iff_exists'.mp (mt gone.mp some_owner)
    exact ⟨n, cprCount_eq allocated, (inv.counted.of_some allocated).1⟩
  · rw [inv.freed]
    simp only [gone]

/-- A reference is made for a second holder, which counts two of them, and both are
released. -/
theorem shared_block_freed_once_two :
    ∃ (trace : List (Op Bool × Answer)) (s : State Bool), Run (system Bool) trace s ∧
      trace = [(.retain true false, .pointer), (.count false, .count 2),
        (.release true, .pointer), (.release false, .null)] ∧
      (∃ n, cprCount ⟨some 2⟩ = some (⟨some 2⟩, .count n) ∧ n.toNat = 2) ∧
      s.owners = 0 ∧ s.block.refcount = none ∧ freed trace = 1 := by
  have made : Run (system Bool) [] ⟨⟨some 1⟩, {true}⟩ :=
    .start ⟨8, fun _ => true, true, rfl, rfl⟩
  have retained := made.next (show (system Bool).step _ (.retain true false, .pointer)
    ⟨⟨some 2⟩, {false, true}⟩ from ⟨by decide, rfl, rfl⟩)
  have counted := retained.next (show (system Bool).step _ (.count false, .count 2)
    ⟨⟨some 2⟩, {false, true}⟩ from ⟨by decide, rfl, rfl⟩)
  have released := counted.next (show (system Bool).step _ (.release true, .pointer)
    ⟨⟨some 1⟩, {false}⟩ from ⟨by decide, by decide, by decide⟩)
  have last := released.next (show (system Bool).step _ (.release false, .null)
    ⟨⟨none⟩, 0⟩ from ⟨by decide, by decide, by decide⟩)
  have two := (shared_block_freed_once retained).2.1 (by decide)
  obtain ⟨_, _, gone, once, _⟩ := shared_block_freed_once last
  exact ⟨_, _, last, rfl, two, rfl, gone.mpr rfl, once⟩

end CprFormal.Memshare.Sharing
