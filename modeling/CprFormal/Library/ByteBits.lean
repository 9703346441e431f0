import Mathlib.Algebra.GroupWithZero.Nat
import CprFormal.Library.Search
import Mathlib.Data.List.GetD

/-!
# Bits of byte lists

Bit `i` of a list of bytes is bit `i % 8` of byte `i / 8`.  How many bits are set is
the sum over the bytes, and the first one that meets a test is in the first byte that
has one.
-/

namespace CprFormal.Library.ByteBits

open CprFormal.Library.Search

/-- Bit `k` of a byte. -/
def bit (b : UInt8) (k : Nat) : Bool := b.toBitVec.getLsbD k

/-- Bit `i` of a list of bytes; there are none set behind its end. -/
def bitAt (bytes : List UInt8) (i : Nat) : Bool := bit (bytes.getD (i / 8) 0) (i % 8)

@[simp]
theorem bit_zero (k : Nat) : bit 0 k = false := by
  simp [bit]

@[simp]
theorem bit_and (a b : UInt8) (k : Nat) : bit (a &&& b) k = (bit a k && bit b k) := by
  simp [bit]

@[simp]
theorem bit_or (a b : UInt8) (k : Nat) : bit (a ||| b) k = (bit a k || bit b k) := by
  simp [bit]

theorem bit_not (a : UInt8) {k : Nat} (inside : k < 8) : bit (~~~a) k = !bit a k := by
  simp [bit, inside]

/-- Bytes are equal when their bits are. -/
theorem bit_ext {a b : UInt8} (same : ∀ k < 8, bit a k = bit b k) : a = b := by
  refine UInt8.toBitVec_inj.mp (BitVec.eq_of_getLsbD_eq fun k inside => ?_)
  exact same k inside

theorem eq_zero_iff {b : UInt8} : b = 0 ↔ ∀ k < 8, bit b k = false := by
  constructor
  · rintro rfl k _
    exact bit_zero k
  · intro clear
    exact bit_ext fun k inside => by rw [clear k inside, bit_zero]

/-- Behind the end of the list no bit is set. -/
theorem bitAt_outside {bytes : List UInt8} {i : Nat} (outside : bytes.length ≤ i / 8) :
    bitAt bytes i = false := by
  unfold bitAt
  rw [List.getD_eq_default _ _ outside, bit_zero]

theorem bitAt_cons_low (b : UInt8) (bytes : List UInt8) {i : Nat} (low : i < 8) :
    bitAt (b :: bytes) i = bit b i := by
  unfold bitAt
  rw [Nat.div_eq_of_lt low, Nat.mod_eq_of_lt low]
  rfl

theorem bitAt_cons_high (b : UInt8) (bytes : List UInt8) (i : Nat) :
    bitAt (b :: bytes) (8 + i) = bitAt bytes i := by
  unfold bitAt
  rw [Nat.add_div_left _ (by omega), Nat.add_mod_left]
  rfl

/-- One byte is replaced. -/
theorem bitAt_set {bytes : List UInt8} {p : Nat} (inside : p < bytes.length) (b : UInt8)
    (i : Nat) : bitAt (bytes.set p b) i = if i / 8 = p then bit b (i % 8) else bitAt bytes i := by
  unfold bitAt
  by_cases here : i / 8 = p
  · rw [if_pos here, here, List.getD_eq_getElem _ _ (by rwa [List.length_set]),
      List.getElem_set_self]
  · rw [if_neg here]
    simp only [List.getD_eq_getElem?_getD, List.getElem?_set_ne (Ne.symm here)]

/-- A list made byte by byte. -/
theorem bitAt_map_range (size : Nat) (f : Nat → UInt8) (i : Nat) :
    bitAt ((List.range size).map f) i =
      if i / 8 < size then bit (f (i / 8)) (i % 8) else false := by
  by_cases inside : i / 8 < size
  · rw [if_pos inside]
    unfold bitAt
    rw [List.getD_eq_getElem _ _ (by simpa using inside), List.getElem_map, List.getElem_range]
  · rw [if_neg inside]
    exact bitAt_outside (by simpa using inside)

@[simp]
theorem bitAt_replicate (size i : Nat) : bitAt (List.replicate size 0) i = false := by
  by_cases inside : i / 8 < size
  · unfold bitAt
    rw [List.getD_eq_getElem _ _ (by simpa using inside), List.getElem_replicate, bit_zero]
  · exact bitAt_outside (by simpa using inside)

theorem bitAt_position (bytes : List UInt8) (p : Nat) {k : Nat} (inside : k < 8) :
    bitAt bytes (8 * p + k) = bit (bytes.getD p 0) k := by
  unfold bitAt
  rw [Nat.mul_add_div (by omega), Nat.div_eq_of_lt inside, Nat.add_zero,
    Nat.mul_add_mod, Nat.mod_eq_of_lt inside]

/-- A bit is set exactly when a byte is not zero. -/
theorem exists_bitAt_iff (bytes : List UInt8) :
    (∃ i, bitAt bytes i = true) ↔ ∃ b ∈ bytes, b ≠ 0 := by
  constructor
  · rintro ⟨i, set⟩
    by_cases inside : i / 8 < bytes.length
    · refine ⟨_, List.getElem_mem inside, ?_⟩
      unfold bitAt at set
      rw [List.getD_eq_getElem _ _ inside] at set
      intro zero
      rw [zero, bit_zero] at set
      cases set
    · rw [bitAt_outside (Nat.le_of_not_lt inside)] at set
      cases set
  · rintro ⟨b, member, nonzero⟩
    obtain ⟨p, inside, rfl⟩ := List.getElem_of_mem member
    obtain ⟨k, low, set⟩ : ∃ k < 8, bit bytes[p] k = true := by
      by_contra clear
      push Not at clear
      exact nonzero (eq_zero_iff.mpr fun k low => by simpa using clear k low)
    refine ⟨8 * p + k, ?_⟩
    rwa [bitAt_position bytes p low, List.getD_eq_getElem _ _ inside]

/-- The number of bits set in a byte. -/
def bitCount (b : UInt8) : Nat := (List.range 8).countP (bit b)

/-- Clearing the lowest bit that is set lowers the count by one. -/
theorem bitCount_clear_lowest (b : UInt8) (nonzero : b ≠ 0) :
    bitCount b = bitCount (b &&& (b - 1)) + 1 := by
  obtain ⟨b⟩ := b
  revert b
  decide +kernel

theorem bitCount_zero : bitCount 0 = 0 := by decide

/-- The bits set in a list are those set in its bytes. -/
theorem countP_bitAt (bytes : List UInt8) :
    (List.range (8 * bytes.length)).countP (bitAt bytes) = (bytes.map bitCount).sum := by
  induction bytes with
  | nil => rfl
  | cons b bytes ih =>
      rw [List.length_cons, Nat.mul_succ, Nat.add_comm, List.range_add, List.countP_append,
        List.countP_map, List.map_cons, List.sum_cons, ← ih]
      have first : (List.range 8).countP (bitAt (b :: bytes)) = bitCount b := by
        refine List.countP_congr fun i member => ?_
        rw [bitAt_cons_low b bytes (List.mem_range.mp member)]
      have rest : bitAt (b :: bytes) ∘ (fun i => 8 + i) = bitAt bytes :=
        funext (bitAt_cons_high b bytes)
      rw [first, rest]

end CprFormal.Library.ByteBits
