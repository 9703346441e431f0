import Mathlib.Tactic.IntervalCases
import CprFormal.Endian.Model
import CprFormal.Library.ByteOrder

/-!
# The accessors are codecs

Each accessor is described byte by byte; that the accessors of a width are inverse to each
other, write their own bytes and no others, and mirror each other, follows from the
descriptions alone.
-/

namespace CprFormal.Endian.Codecs

open CprFormal.Endian.Model
open CprFormal.Library.ByteOrder CprFormal.Library.FlatMemory

/-- Stored bytes, from the lowest one on, are the digits of the number. -/
theorem digits16 (v : UInt16) {byte : Nat → UInt8} (lowest : byte 0 = (v &&& 0xff).toUInt8)
    (byte1 : byte 1 = ((v &&& 0xff00) >>> 8).toUInt8) :
    ∀ i, i < 2 → (byte i).toNat = v.toNat / 256 ^ i % 256 := by
  intro i inside
  interval_cases i
  · rw [lowest]
    exact lowest16 v
  · rw [byte1]
    exact masked16 v 8 rfl (by decide) rfl

theorem digits32 (v : UInt32) {byte : Nat → UInt8} (lowest : byte 0 = (v &&& 0xff).toUInt8)
    (byte1 : byte 1 = ((v &&& 0x0000ff00) >>> 8).toUInt8)
    (byte2 : byte 2 = ((v &&& 0x00ff0000) >>> 16).toUInt8)
    (byte3 : byte 3 = ((v &&& 0xff000000) >>> 24).toUInt8) :
    ∀ i, i < 4 → (byte i).toNat = v.toNat / 256 ^ i % 256 := by
  intro i inside
  interval_cases i
  · rw [lowest]
    exact lowest32 v
  · rw [byte1]
    exact masked32 v 8 rfl (by decide) rfl
  · rw [byte2]
    exact masked32 v 16 rfl (by decide) rfl
  · rw [byte3]
    exact masked32 v 24 rfl (by decide) rfl

theorem digits64 (v : UInt64) {byte : Nat → UInt8} (lowest : byte 0 = (v &&& 0xff).toUInt8)
    (byte1 : byte 1 = ((v &&& 0x000000000000ff00) >>> 8).toUInt8)
    (byte2 : byte 2 = ((v &&& 0x0000000000ff0000) >>> 16).toUInt8)
    (byte3 : byte 3 = ((v &&& 0x00000000ff000000) >>> 24).toUInt8)
    (byte4 : byte 4 = ((v &&& 0x000000ff00000000) >>> 32).toUInt8)
    (byte5 : byte 5 = ((v &&& 0x0000ff0000000000) >>> 40).toUInt8)
    (byte6 : byte 6 = ((v &&& 0x00ff000000000000) >>> 48).toUInt8)
    (byte7 : byte 7 = ((v &&& 0xff00000000000000) >>> 56).toUInt8) :
    ∀ i, i < 8 → (byte i).toNat = v.toNat / 256 ^ i % 256 := by
  intro i inside
  interval_cases i
  · rw [lowest]
    exact lowest64 v
  · rw [byte1]
    exact masked64 v 8 rfl (by decide) rfl
  · rw [byte2]
    exact masked64 v 16 rfl (by decide) rfl
  · rw [byte3]
    exact masked64 v 24 rfl (by decide) rfl
  · rw [byte4]
    exact masked64 v 32 rfl (by decide) rfl
  · rw [byte5]
    exact masked64 v 40 rfl (by decide) rfl
  · rw [byte6]
    exact masked64 v 48 rfl (by decide) rfl
  · rw [byte7]
    exact masked64 v 56 rfl (by decide) rfl

theorem be16 : Codec 2 (mirror 2) UInt16.toNat beGet16 beSet16 where
  reads ptr := by
    unfold beGet16
    rw [lanes16]
    simp only [little_succ, little_zero, mirror, Nat.reduceAdd, Nat.reduceSub]
    omega
  stores ptr v :=
    @digits16 v (fun i => beSet16 ptr v (mirror 2 i)) rfl rfl
  frame ptr v j outside := by
    unfold beSet16
    simp (disch := omega) only [Memory.set_other]

theorem le16 : Codec 2 id UInt16.toNat leGet16 leSet16 where
  reads ptr := by
    unfold leGet16
    rw [lanes16]
    simp only [little_succ, little_zero, id, Nat.reduceAdd]
    omega
  stores ptr v :=
    @digits16 v (fun i => leSet16 ptr v i) rfl rfl
  frame ptr v j outside := by
    unfold leSet16
    simp (disch := omega) only [Memory.set_other]

theorem be32 : Codec 4 (mirror 4) UInt32.toNat beGet32 beSet32 where
  reads ptr := by
    unfold beGet32
    rw [lanes32]
    simp only [little_succ, little_zero, mirror, Nat.reduceAdd, Nat.reduceSub]
    omega
  stores ptr v :=
    @digits32 v (fun i => beSet32 ptr v (mirror 4 i)) rfl rfl rfl rfl
  frame ptr v j outside := by
    unfold beSet32
    simp (disch := omega) only [Memory.set_other]

theorem le32 : Codec 4 id UInt32.toNat leGet32 leSet32 where
  reads ptr := by
    unfold leGet32
    rw [lanes32]
    simp only [little_succ, little_zero, id, Nat.reduceAdd]
    omega
  stores ptr v :=
    @digits32 v (fun i => leSet32 ptr v i) rfl rfl rfl rfl
  frame ptr v j outside := by
    unfold leSet32
    simp (disch := omega) only [Memory.set_other]

theorem be64 : Codec 8 (mirror 8) UInt64.toNat beGet64 beSet64 where
  reads ptr := by
    unfold beGet64
    rw [lanes64]
    simp only [little_succ, little_zero, mirror, Nat.reduceAdd, Nat.reduceSub]
    omega
  stores ptr v :=
    @digits64 v (fun i => beSet64 ptr v (mirror 8 i)) rfl rfl rfl rfl rfl rfl rfl rfl
  frame ptr v j outside := by
    unfold beSet64
    simp (disch := omega) only [Memory.set_other]

theorem le64 : Codec 8 id UInt64.toNat leGet64 leSet64 where
  reads ptr := by
    unfold leGet64
    rw [lanes64]
    simp only [little_succ, little_zero, id, Nat.reduceAdd]
    omega
  stores ptr v :=
    @digits64 v (fun i => leSet64 ptr v i) rfl rfl rfl rfl rfl rfl rfl rfl
  frame ptr v j outside := by
    unfold leSet64
    simp (disch := omega) only [Memory.set_other]

/-- The first `n` bytes from the last to the first one. -/
def reversed (n : Nat) (ptr : Memory UInt8) : Memory UInt8 :=
  fun i => if i < n then ptr (n - 1 - i) else ptr i

/-- The accessors of `n` bytes in both orders are inverse to each other, write these
bytes and no others, and read the positional values of the two orders. -/
structure Inverses (n : Nat) {β : Type} (value : β → Nat) (beGet leGet : Memory UInt8 → β)
    (beSet leSet : Memory UInt8 → β → Memory UInt8) : Prop where
  be_get_set : ∀ ptr v, beGet (beSet ptr v) = v
  le_get_set : ∀ ptr v, leGet (leSet ptr v) = v
  be_set_get : ∀ ptr, beSet ptr (beGet ptr) = ptr
  le_set_get : ∀ ptr, leSet ptr (leGet ptr) = ptr
  be_written : ∀ ptr ptr' v i, i < n → beSet ptr v i = beSet ptr' v i
  le_written : ∀ ptr ptr' v i, i < n → leSet ptr v i = leSet ptr' v i
  be_frame : ∀ ptr v i, n ≤ i → beSet ptr v i = ptr i
  le_frame : ∀ ptr v i, n ≤ i → leSet ptr v i = ptr i
  be_sum : ∀ ptr, value (beGet ptr) =
    ∑ i ∈ Finset.range n, (ptr i).toNat * 256 ^ (n - 1 - i)
  le_sum : ∀ ptr, value (leGet ptr) = ∑ i ∈ Finset.range n, (ptr i).toNat * 256 ^ i
  reverse : ∀ ptr, leGet ptr = beGet (reversed n ptr)

section Width

variable {n : Nat} {β : Type} {value : β → Nat} {beGet leGet : Memory UInt8 → β}
  {beSet leSet : Memory UInt8 → β → Memory UInt8}

theorem reverse_of_codecs (be : Codec n (mirror n) value beGet beSet)
    (le : Codec n id value leGet leSet) (injective : ∀ v w, value v = value w → v = w)
    (ptr : Memory UInt8) : leGet ptr = beGet (reversed n ptr) := by
  apply injective
  rw [le.reads, be.reads]
  refine Finset.sum_congr rfl fun i member => ?_
  have inside := Finset.mem_range.mp member
  have turned : reversed n ptr (mirror n i) = ptr i := by
    unfold reversed
    rw [if_pos (mirror_lt inside)]
    exact congrArg ptr (mirror_mirror inside)
  exact congrArg (fun b : UInt8 => b.toNat * 256 ^ i) turned.symm

theorem inverses_of_codecs (be : Codec n (mirror n) value beGet beSet)
    (le : Codec n id value leGet leSet) (bounded : ∀ v, value v < 256 ^ n)
    (injective : ∀ v w, value v = value w → v = w) :
    Inverses n value beGet leGet beSet leSet where
  be_get_set := be.get_set bounded injective
  le_get_set := le.get_set bounded injective
  be_set_get := be.set_get (fun _ => mirror_lt) fun _ => mirror_mirror
  le_set_get := le.set_get (fun _ => id) fun _ _ => rfl
  be_written ptr ptr' v _ := be.set_congr (fun _ => mirror_lt) (fun _ => mirror_mirror) ptr ptr' v
  le_written ptr ptr' v _ := le.set_congr (fun _ => id) (fun _ _ => rfl) ptr ptr' v
  be_frame := be.frame
  le_frame := le.frame
  be_sum ptr := (be.reads ptr).trans (big_eq_little ptr n).symm
  le_sum := le.reads
  reverse := reverse_of_codecs be le injective

end Width

/-- The accessors of all three widths. -/
theorem endian_codecs :
    Inverses 2 UInt16.toNat beGet16 leGet16 beSet16 leSet16 ∧
    Inverses 4 UInt32.toNat beGet32 leGet32 beSet32 leSet32 ∧
    Inverses 8 UInt64.toNat beGet64 leGet64 beSet64 leSet64 :=
  ⟨inverses_of_codecs be16 le16 UInt16.toNat_lt fun _ _ => UInt16.toNat_inj.mp,
    inverses_of_codecs be32 le32 UInt32.toNat_lt fun _ _ => UInt32.toNat_inj.mp,
    inverses_of_codecs be64 le64 UInt64.toNat_lt fun _ _ => UInt64.toNat_inj.mp⟩

end CprFormal.Endian.Codecs
