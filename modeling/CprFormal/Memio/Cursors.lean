import Mathlib.Algebra.Group.Nat.Defs
import CprFormal.Library.Transition
import CprFormal.Memio.Model

/-!
# Cursor laws of a `memio_t`

The bounds test of `cpr_xgetmem` adds the caller's length to `get`, so a length
that wraps the sum passes it and moves `get` backwards.  Without such a call every
operation keeps to the block, and a failed one changes nothing.  `cpr_xputmem`
subtracts instead and needs no condition.
-/

namespace CprFormal.Memio.Cursors

open CprFormal.Library CprFormal.Library.FlatMemory CprFormal.Library.Transition
open CprFormal.Bufio.Model
open CprFormal.Memio.Model

/-- The calls on a `memio_t`. -/
inductive Call where
  | cgetmem
  | xgetmem (size : UInt64)
  | lgetmem (outlen : Bool) (delim : Option Delim)
  | cputmem (ch : UInt8)
  | xputmem (from_ : Option (Memory UInt8)) (size : UInt64)
  | resetmem

/-- What a call leaves. -/
def step (mem : MemioT) : Call → MemioT
  | .cgetmem => (cprCgetmem mem).1
  | .xgetmem size => (cprXgetmem mem size).1
  | .lgetmem outlen delim => (cprLgetmem mem outlen delim).mem
  | .cputmem ch => (cprCputmem mem ch).1
  | .xputmem from_ size => (cprXputmem mem from_ size).1
  | .resetmem => cprResetmem mem

/-- The call fails.  The `0` of `cpr_cgetmem` tells nothing, since it may be a byte of
the block; it fails at the end of the block. -/
def Fails (mem : MemioT) : Call → Prop
  | .cgetmem => mem.get ≥ mem.size
  | .xgetmem size => (cprXgetmem mem size).2 = none
  | .lgetmem outlen delim => (cprLgetmem mem outlen delim).result = none
  | .cputmem ch => (cprCputmem mem ch).2 = false
  | .xputmem from_ size => (cprXputmem mem from_ size).2 = false
  | .resetmem => False

/-- Both cursors are inside the block. -/
structure Bounded (mem : MemioT) : Prop where
  get : mem.get ≤ mem.size
  put : mem.put ≤ mem.size
  size : mem.size < 2 ^ 63

theorem Bounded.word {mem : MemioT} (bounded : Bounded mem) : mem.size < 2 ^ 64 :=
  Nat.lt_trans bounded.size (by decide)

/-- A successful `cpr_xgetmem`. -/
structure Taken (mem : MemioT) (size : UInt64) (address : Nat) : Prop where
  address : address = mem.get
  inside : mem.get + size.toNat ≤ mem.size
  advanced : (cprXgetmem mem size).1.get = mem.get + size.toNat

/-- A successful `cpr_xputmem`. -/
structure Stored (mem : MemioT) (from_ : Option (Memory UInt8)) (size : UInt64) : Prop where
  inside : mem.put + size.toNat ≤ mem.size
  copied : ∃ src, from_ = some src ∧
    (cprXputmem mem from_ size).1.data.slice mem.put size.toNat = src.slice 0 size.toNat
  others : ∀ i, i < mem.put ∨ mem.put + size.toNat ≤ i →
    (cprXputmem mem from_ size).1.data i = mem.data i
  advanced : (cprXputmem mem from_ size).1.put = mem.put + size.toNat

/-- The laws of one call. -/
structure Lawful (mem : MemioT) (call : Call) : Prop where
  get : (step mem call).get ≤ (step mem call).size
  put : (step mem call).put ≤ (step mem call).size
  failed : Fails mem call → step mem call = mem
  forward : call ≠ .resetmem → mem.get ≤ (step mem call).get
  taken : ∀ size address, call = .xgetmem size →
    (cprXgetmem mem size).2 = some address → Taken mem size address
  stored : ∀ from_ size, call = .xputmem from_ size →
    (cprXputmem mem from_ size).2 = true → Stored mem from_ size

/-- The length of a `cpr_xgetmem` does not wrap behind `get`. -/
def Unwrapped (mem : MemioT) : Call → Prop
  | .xgetmem size => mem.get + size.toNat < 2 ^ 64
  | _ => True

instance (mem : MemioT) (call : Call) : Decidable (Unwrapped mem call) :=
  match call with
  | .xgetmem size => inferInstanceAs (Decidable (mem.get + size.toNat < 2 ^ 64))
  | .cgetmem | .lgetmem _ _ | .cputmem _ | .xputmem _ _ | .resetmem =>
      inferInstanceAs (Decidable True)

/-- Unless the length wraps, the test of `cpr_xgetmem` is the exact one. -/
theorem xgetmem_exact {mem : MemioT} {size : UInt64} (small : mem.get + size.toNat < 2 ^ 64) :
    cprXgetmem mem size =
      if mem.get + size.toNat > mem.size then (mem, none)
      else ({ mem with get := mem.get + size.toNat }, some mem.get) := by
  unfold cprXgetmem
  rw [SizeT.wrap_of_lt small]

/-- A length that wraps is granted and moves `get` backwards. -/
theorem xgetmem_wrapped {mem : MemioT} (bounded : Bounded mem) {size : UInt64}
    (large : ¬ mem.get + size.toNat < 2 ^ 64) :
    ∃ get < mem.get, cprXgetmem mem size = ({ mem with get := get }, some mem.get) := by
  have below := bounded.get
  have limit := bounded.size
  have word := size.toNat_lt
  have back : SizeT.wrap (mem.get + size.toNat) < mem.get := by
    unfold SizeT.wrap
    omega
  refine ⟨_, back, ?_⟩
  unfold cprXgetmem
  rw [if_neg (by omega)]

/-- `cpr_xputmem` tests against what is free behind `put`. -/
theorem xputmem_exact {mem : MemioT} (below : mem.put ≤ mem.size) (word : mem.size < 2 ^ 64)
    (from_ : Option (Memory UInt8)) (size : UInt64) :
    cprXputmem mem from_ size =
      match from_ with
      | none => (mem, false)
      | some src =>
          if mem.put + size.toNat ≤ mem.size then
            ({ mem with
                data := mem.data.write mem.put (src.slice 0 size.toNat)
                put := mem.put + size.toNat }, true)
          else (mem, false) := by
  unfold cprXputmem cprMemcpy
  rw [SizeT.sub_of_le below]
  by_cases room : mem.put + size.toNat ≤ mem.size
  · have fits : ¬ mem.size - mem.put < size.toNat := by omega
    have whole : ¬ size.toNat > mem.size - mem.put := fits
    rw [if_neg fits]
    cases from_ with
    | none => rfl
    | some src =>
        simp only [if_neg whole, if_pos room]
        rw [SizeT.wrap_of_lt (by omega)]
  · rw [if_pos (by omega)]
    cases from_ with
    | none => rfl
    | some src => simp only [if_neg room]

theorem xputmem_stored {mem : MemioT} (bounded : Bounded mem) {from_ : Option (Memory UInt8)}
    {size : UInt64} (ok : (cprXputmem mem from_ size).2 = true) : Stored mem from_ size := by
  have exact_ := xputmem_exact bounded.put bounded.word from_ size
  cases from_ with
  | none =>
      rw [exact_] at ok
      cases ok
  | some src =>
      by_cases room : mem.put + size.toNat ≤ mem.size
      · simp only [if_pos room] at exact_
        have length : (src.slice 0 size.toNat).length = size.toNat := Memory.slice_length ..
        refine ⟨room, ⟨src, rfl, ?_⟩, fun i apart => ?_, ?_⟩
        · rw [exact_]
          have written := mem.data.slice_write mem.put (src.slice 0 size.toNat)
          rwa [length] at written
        · rw [exact_]
          exact mem.data.write_outside _ (by rwa [length])
        · rw [exact_]
      · simp only [if_neg room] at exact_
        rw [exact_] at ok
        cases ok

/-! ## Each step -/

/-- Both cursors moved forward and stayed inside the block. -/
structure Forward (mem mem' : MemioT) : Prop where
  size : mem'.size = mem.size
  get : mem.get ≤ mem'.get ∧ mem'.get ≤ mem.size
  put : mem.put ≤ mem'.put ∧ mem'.put ≤ mem.size

theorem Forward.refl {mem : MemioT} (bounded : Bounded mem) : Forward mem mem :=
  ⟨rfl, ⟨Nat.le_refl _, bounded.get⟩, ⟨Nat.le_refl _, bounded.put⟩⟩

theorem cgetmem_forward {mem : MemioT} (bounded : Bounded mem) :
    Forward mem (cprCgetmem mem).1 := by
  unfold cprCgetmem
  split
  · exact .refl bounded
  · rename_i unread
    exact ⟨rfl, ⟨Nat.le_succ _, Nat.lt_of_not_le unread⟩, ⟨Nat.le_refl _, bounded.put⟩⟩

theorem cputmem_forward {mem : MemioT} (bounded : Bounded mem) (ch : UInt8) :
    Forward mem (cprCputmem mem ch).1 := by
  unfold cprCputmem
  split
  · exact .refl bounded
  · rename_i room
    exact ⟨rfl, ⟨Nat.le_refl _, bounded.get⟩, ⟨Nat.le_succ _, Nat.lt_of_not_le room⟩⟩

theorem xgetmem_forward {mem : MemioT} (bounded : Bounded mem) {size : UInt64}
    (small : mem.get + size.toNat < 2 ^ 64) : Forward mem (cprXgetmem mem size).1 := by
  rw [xgetmem_exact small]
  split
  · exact .refl bounded
  · rename_i inside
    exact ⟨rfl, ⟨Nat.le_add_right _ _, Nat.le_of_not_lt inside⟩,
      ⟨Nat.le_refl _, bounded.put⟩⟩

theorem xputmem_forward {mem : MemioT} (bounded : Bounded mem) (from_ : Option (Memory UInt8))
    (size : UInt64) : Forward mem (cprXputmem mem from_ size).1 := by
  rw [xputmem_exact bounded.put bounded.word]
  cases from_ with
  | none => exact .refl bounded
  | some src =>
      dsimp only
      split
      · rename_i room
        exact ⟨rfl, ⟨Nat.le_refl _, bounded.get⟩, ⟨Nat.le_add_right _ _, room⟩⟩
      · exact .refl bounded

theorem lgetmem_forward {mem : MemioT} (bounded : Bounded mem) (outlen : Bool)
    (delim : Option Delim) : Forward mem (cprLgetmem mem outlen delim).mem := by
  cases found : (cprLgetmem mem outlen delim).result with
  | none =>
      rw [lgetmem_none found]
      exact .refl bounded
  | some line =>
      obtain ⟨inside, advanced, size⟩ := lgetmem_some found
      have put := lgetmem_put mem outlen delim
      have below := bounded.put
      exact ⟨size, by omega, by omega⟩

/-- `get` only moves back when `cpr_resetmem` sets it or `cpr_xgetmem` wraps it. -/
theorem step_forward {mem : MemioT} (bounded : Bounded mem) {call : Call}
    (kept : call ≠ .resetmem) (unwrapped : Unwrapped mem call) :
    Forward mem (step mem call) := by
  cases call with
  | cgetmem => exact cgetmem_forward bounded
  | xgetmem size => exact xgetmem_forward bounded unwrapped
  | lgetmem outlen delim => exact lgetmem_forward bounded outlen delim
  | cputmem ch => exact cputmem_forward bounded ch
  | xputmem from_ size => exact xputmem_forward bounded from_ size
  | resetmem => exact absurd rfl kept

/-- A wrapped `cpr_xgetmem` stays inside the block as well. -/
theorem step_bounded {mem : MemioT} (bounded : Bounded mem) (call : Call) :
    Bounded (step mem call) := by
  have inside {mem' : MemioT} (forward : Forward mem mem') : Bounded mem' := by
    obtain ⟨size, get, put⟩ := forward
    have limit := bounded.size
    exact ⟨by omega, by omega, by omega⟩
  cases call with
  | xgetmem size =>
      by_cases small : mem.get + size.toNat < 2 ^ 64
      · exact inside (xgetmem_forward bounded small)
      · obtain ⟨get, back, moved⟩ := xgetmem_wrapped bounded small
        change Bounded (cprXgetmem mem size).1
        rw [moved]
        exact ⟨Nat.le_of_lt (Nat.lt_of_lt_of_le back bounded.get), bounded.put, bounded.size⟩
  | resetmem => exact ⟨Nat.zero_le _, Nat.zero_le _, bounded.size⟩
  | cgetmem | lgetmem _ _ | cputmem _ | xputmem _ _ =>
      exact inside (step_forward bounded (by nofun) trivial)

theorem step_failed (mem : MemioT) {call : Call} (fails : Fails mem call) :
    step mem call = mem := by
  cases call with
  | cgetmem =>
      change (cprCgetmem mem).1 = mem
      unfold cprCgetmem
      exact congrArg Prod.fst (if_pos fails)
  | xgetmem size =>
      change (cprXgetmem mem size).2 = none at fails
      change (cprXgetmem mem size).1 = mem
      unfold cprXgetmem at *
      split at fails
      · rename_i outside
        rw [if_pos outside]
      · cases fails
  | lgetmem outlen delim => exact lgetmem_none fails
  | cputmem ch =>
      change (cprCputmem mem ch).2 = false at fails
      change (cprCputmem mem ch).1 = mem
      unfold cprCputmem at *
      split at fails
      · rename_i full
        rw [if_pos full]
      · cases fails
  | xputmem from_ size =>
      change (cprXputmem mem from_ size).2 = false at fails
      change (cprXputmem mem from_ size).1 = mem
      unfold cprXputmem at *
      split at fails
      · rename_i full
        rw [if_pos full]
      · rename_i room
        rw [if_neg room]
        cases copied : cprMemcpy mem.data mem.put (SizeT.sub mem.size mem.put) from_
            size.toNat with
        | none => rfl
        | some data =>
            rw [copied] at fails
            cases fails
  | resetmem => cases fails

/-- The laws hold of a call exactly when it does not wrap. -/
theorem lawful_iff {mem : MemioT} (bounded : Bounded mem) (call : Call) :
    Lawful mem call ↔ Unwrapped mem call := by
  have after := step_bounded bounded call
  constructor
  · intro lawful
    cases call with
    | xgetmem size =>
        change mem.get + size.toNat < 2 ^ 64
        by_contra wrapped
        obtain ⟨get, _, moved⟩ := xgetmem_wrapped bounded wrapped
        have taken := lawful.taken size mem.get rfl (by rw [moved])
        have inside := taken.inside
        have limit := bounded.size
        omega
    | cgetmem | lgetmem _ _ | cputmem _ | xputmem _ _ | resetmem => exact trivial
  · intro unwrapped
    refine ⟨after.get, after.put, step_failed mem, fun kept =>
      (step_forward bounded kept unwrapped).get.1, ?_, ?_⟩
    · rintro size address rfl found
      have exact_ := xgetmem_exact unwrapped
      by_cases outside : mem.get + size.toNat > mem.size
      · rw [exact_, if_pos outside] at found
        cases found
      · rw [exact_, if_neg outside] at found
        cases found
        exact ⟨rfl, Nat.le_of_not_lt outside, by rw [exact_, if_neg outside]⟩
    · rintro from_ size rfl ok
      exact xputmem_stored bounded ok

/-- The cursor laws hold of every call of a run exactly when no `cpr_xgetmem` of it
wraps. -/
theorem memio_laws_iff (mem : MemioT) (bounded : Bounded mem) (calls : List Call) :
    Throughout step Lawful mem calls ↔ Throughout step Unwrapped mem calls :=
  throughout_congr (fun mem _ => Bounded mem)
    (fun _ call _ bounded _ => step_bounded bounded call)
    (fun _ call _ bounded => lawful_iff bounded call) bounded

/-- Two bytes are stored and taken back. -/
theorem memio_laws_iff_two :
    Throughout step Lawful (cprInitmem (fun _ => 0) 4)
      [.xputmem (some fun _ => 7) 2, .xgetmem 2, .xgetmem 3] :=
  (memio_laws_iff (cprInitmem (fun _ => 0) 4) ⟨by decide, by decide, by decide⟩
    [.xputmem (some fun _ => 7) 2, .xgetmem 2, .xgetmem 3]).mpr
    ⟨trivial, by decide, by decide, trivial⟩

/-- Behind the first byte, the largest length is granted and moves `get` back. -/
theorem memio_laws_wrapped :
    ¬ ∀ (mem : MemioT), Bounded mem → ∀ calls : List Call,
      Throughout step Lawful mem calls := by
  intro claimed
  have bounded : Bounded ⟨fun _ => 0, 1, 0, 4, false⟩ := ⟨by decide, by decide, by decide⟩
  have back := (claimed _ bounded [.xgetmem 18446744073709551615]).1.forward (by nofun)
  exact absurd back (by decide)

end CprFormal.Memio.Cursors
