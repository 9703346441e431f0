import Mathlib.Algebra.BigOperators.Intervals
import Mathlib.Algebra.BigOperators.Ring.Finset
import Mathlib.Tactic.Ring
import CprFormal.Library.FlatMemory

/-!
# Byte orders

A number of `n` bytes is stored with its lowest or with its highest byte first.
Accessors that place the bytes by an involution of the indices are inverse to each other
as soon as each of them has been described byte by byte.
-/

namespace CprFormal.Library.ByteOrder

open CprFormal.Library.FlatMemory

/-- The number of `n` bytes with the lowest one first. -/
def little (ptr : Nat → UInt8) (n : Nat) : Nat :=
  ∑ i ∈ Finset.range n, (ptr i).toNat * 256 ^ i

/-- The number of `n` bytes with the highest one first. -/
def big (ptr : Nat → UInt8) (n : Nat) : Nat :=
  ∑ i ∈ Finset.range n, (ptr i).toNat * 256 ^ (n - 1 - i)

/-- The index from the other end. -/
def mirror (n i : Nat) : Nat := n - 1 - i

theorem mirror_lt {n i : Nat} (inside : i < n) : mirror n i < n := by
  unfold mirror
  omega

theorem mirror_mirror {n i : Nat} (inside : i < n) : mirror n (mirror n i) = i := by
  unfold mirror
  omega

/-- The highest byte first is the lowest byte first from the other end. -/
theorem big_eq_little (ptr : Nat → UInt8) (n : Nat) :
    big ptr n = little (fun i => ptr (mirror n i)) n := by
  unfold big little
  rw [← Finset.sum_range_reflect]
  refine Finset.sum_congr rfl fun i member => ?_
  have inside := Finset.mem_range.mp member
  change (ptr (mirror n i)).toNat * 256 ^ mirror n (mirror n i) = _
  rw [mirror_mirror inside]

theorem little_zero (ptr : Nat → UInt8) : little ptr 0 = 0 := rfl

/-- The lowest byte and the number of the bytes behind it. -/
theorem little_succ (ptr : Nat → UInt8) (n : Nat) :
    little ptr (n + 1) = (ptr 0).toNat + 256 * little (fun i => ptr (i + 1)) n := by
  unfold little
  rw [Finset.sum_range_succ', Finset.mul_sum, pow_zero, Nat.mul_one, Nat.add_comm]
  refine congrArg _ (Finset.sum_congr rfl fun i _ => ?_)
  rw [pow_succ]
  ring

/-- Each byte is a digit of the number. -/
theorem little_digit (ptr : Nat → UInt8) {n i : Nat} (inside : i < n) :
    little ptr n / 256 ^ i % 256 = (ptr i).toNat := by
  induction i generalizing ptr n with
  | zero =>
      obtain ⟨n, rfl⟩ := Nat.exists_eq_add_of_lt inside
      have byte := (ptr 0).toNat_lt
      rw [Nat.zero_add, little_succ, pow_zero, Nat.div_one]
      omega
  | succ i ih =>
      cases n with
      | zero => exact absurd inside (Nat.not_lt_zero _)
      | succ n =>
          have byte := (ptr 0).toNat_lt
          have digit := ih (fun j => ptr (j + 1)) (Nat.lt_of_succ_lt_succ inside)
          have rest : ((ptr 0).toNat + 256 * little (fun j => ptr (j + 1)) n) / 256 =
              little (fun j => ptr (j + 1)) n := by
            omega
          rw [little_succ, pow_succ', ← Nat.div_div_eq_div_mul, rest]
          exact digit

/-- Bytes that are the digits of a number stand for it. -/
theorem little_eq {ptr : Nat → UInt8} {n v : Nat} (small : v < 256 ^ n)
    (digits : ∀ i, i < n → (ptr i).toNat = v / 256 ^ i % 256) : little ptr n = v := by
  induction n generalizing ptr v with
  | zero =>
      rw [pow_zero] at small
      exact (Nat.lt_one_iff.mp small).symm
  | succ n ih =>
      have lowest := digits 0 (Nat.zero_lt_succ n)
      rw [pow_zero, Nat.div_one] at lowest
      rw [pow_succ] at small
      have rest : little (fun i => ptr (i + 1)) n = v / 256 := by
        refine ih (by omega) fun i inside => ?_
        have digit := digits (i + 1) (Nat.succ_lt_succ inside)
        rwa [pow_succ', ← Nat.div_div_eq_div_mul] at digit
      rw [little_succ, lowest, rest]
      omega

/-- `get` reads and `set` stores a number of `n` bytes, the byte of weight `256 ^ i` at
index `place i`. -/
structure Codec (n : Nat) (place : Nat → Nat) {β : Type} (value : β → Nat)
    (get : Memory UInt8 → β) (set : Memory UInt8 → β → Memory UInt8) : Prop where
  reads : ∀ ptr, value (get ptr) = little (fun i => ptr (place i)) n
  stores : ∀ ptr v i, i < n → (set ptr v (place i)).toNat = value v / 256 ^ i % 256
  frame : ∀ ptr v j, n ≤ j → set ptr v j = ptr j

section Accessors

variable {n : Nat} {place : Nat → Nat} {β : Type} {value : β → Nat}
  {get : Memory UInt8 → β} {set : Memory UInt8 → β → Memory UInt8}

/-- What is read is what was stored. -/
theorem Codec.get_set (codec : Codec n place value get set)
    (bounded : ∀ v, value v < 256 ^ n) (injective : ∀ v w, value v = value w → v = w)
    (ptr : Memory UInt8) (v : β) : get (set ptr v) = v := by
  apply injective
  rw [codec.reads]
  exact little_eq (bounded v) (codec.stores ptr v)

/-- Storing what was read changes nothing. -/
theorem Codec.set_get (codec : Codec n place value get set)
    (inside : ∀ i, i < n → place i < n) (involution : ∀ i, i < n → place (place i) = i)
    (ptr : Memory UInt8) : set ptr (get ptr) = ptr := by
  funext j
  by_cases early : j < n
  · have stored := codec.stores ptr (get ptr) (place j) (inside j early)
    rw [involution j early, codec.reads, little_digit _ (inside j early),
      involution j early] at stored
    exact UInt8.toNat_inj.mp stored
  · exact codec.frame ptr (get ptr) j (Nat.not_lt.mp early)

/-- All bytes of the number are written: nothing is left of what was there. -/
theorem Codec.set_congr (codec : Codec n place value get set)
    (inside : ∀ i, i < n → place i < n) (involution : ∀ i, i < n → place (place i) = i)
    (ptr ptr' : Memory UInt8) (v : β) {j : Nat} (early : j < n) :
    set ptr v j = set ptr' v j := by
  have first := codec.stores ptr v (place j) (inside j early)
  have second := codec.stores ptr' v (place j) (inside j early)
  rw [involution j early] at first second
  exact UInt8.toNat_inj.mp (first.trans second.symm)

end Accessors

/-- Bits above and bits below. -/
theorem or_eq_add {a b : Nat} (s : Nat) (above : 2 ^ s ∣ a) (below : b < 2 ^ s) :
    a ||| b = a + b := by
  obtain ⟨c, rfl⟩ := above
  exact (Nat.two_pow_add_eq_or_of_lt below c).symm

/-- The bits that a mask of eight ones at `s` leaves, moved down. -/
theorem and_shiftRight (v s : Nat) : (v &&& 255 * 2 ^ s) >>> s % 256 = v / 2 ^ s % 256 := by
  have low : v / 2 ^ s &&& 255 = v / 2 ^ s % 256 := Nat.and_two_pow_sub_one_eq_mod _ 8
  rw [Nat.shiftRight_and_distrib, Nat.shiftRight_eq_div_pow, Nat.shiftRight_eq_div_pow,
    Nat.mul_div_cancel _ (Nat.two_pow_pos s), low, Nat.mod_mod]

/-- A byte below the ones that are there already. -/
theorem or_lane (hi : Nat) (b : UInt8) {s t : Nat} (next : t = s + 8) :
    hi * 2 ^ t ||| b.toNat * 2 ^ s = (hi * 256 + b.toNat) * 2 ^ s := by
  subst next
  have above : 2 ^ (s + 8) ∣ hi * 2 ^ (s + 8) := Nat.dvd_mul_left _ _
  have below : b.toNat * 2 ^ s < 2 ^ (s + 8) := by
    rw [Nat.pow_add, Nat.mul_comm (2 ^ s)]
    exact Nat.mul_lt_mul_of_pos_right b.toNat_lt (Nat.two_pow_pos s)
  rw [or_eq_add _ above below, Nat.pow_add]
  ring

theorem lane_lt (b : UInt8) {s w : Nat} (inside : s + 8 ≤ w) : b.toNat * 2 ^ s < 2 ^ w := by
  have power : 2 ^ (s + 8) ≤ 2 ^ w := Nat.pow_le_pow_right (by decide) inside
  have byte : b.toNat * 2 ^ s < 2 ^ 8 * 2 ^ s :=
    Nat.mul_lt_mul_of_pos_right b.toNat_lt (Nat.two_pow_pos s)
  rw [Nat.pow_add, Nat.mul_comm] at power
  exact Nat.lt_of_lt_of_le byte power

theorem lane16 (b : UInt8) {s : UInt16} (k : Nat) (amount : s.toNat = k)
    (inside : k + 8 ≤ 16) : (b.toUInt16 <<< s).toNat = b.toNat * 2 ^ k := by
  have small : k < 16 := by omega
  rw [UInt16.toNat_shiftLeft, UInt8.toNat_toUInt16, amount, Nat.mod_eq_of_lt small,
    Nat.shiftLeft_eq, Nat.mod_eq_of_lt (lane_lt b inside)]

theorem lanes16 (b1 b0 : UInt8) :
    (b1.toUInt16 <<< 8 ||| b0.toUInt16).toNat =
      b1.toNat * 256 + b0.toNat := by
  have last : b0.toUInt16.toNat = b0.toNat * 2 ^ 0 := by
    rw [UInt8.toNat_toUInt16, Nat.pow_zero, Nat.mul_one]
  simp only [UInt16.toNat_or]
  rw [lane16 b1 8 rfl (by decide), last, or_lane (s := 0) (t := 8) _ b0 rfl, Nat.pow_zero,
    Nat.mul_one]

theorem masked16 (v : UInt16) {mask s : UInt16} (k : Nat) (amount : s.toNat = k)
    (inside : k < 16) (ones : mask.toNat = 255 * 2 ^ k) :
    ((v &&& mask) >>> s).toUInt8.toNat = v.toNat / 2 ^ k % 256 := by
  rw [UInt16.toNat_toUInt8, UInt16.toNat_shiftRight, UInt16.toNat_and, ones, amount,
    Nat.mod_eq_of_lt inside]
  exact and_shiftRight _ _

theorem lowest16 (v : UInt16) : (v &&& 0xff).toUInt8.toNat = v.toNat / 2 ^ 0 % 256 := by
  have ones : UInt16.toNat 0xff = 255 * 2 ^ 0 := rfl
  rw [UInt16.toNat_toUInt8, UInt16.toNat_and, ones]
  exact and_shiftRight _ 0

theorem lane32 (b : UInt8) {s : UInt32} (k : Nat) (amount : s.toNat = k)
    (inside : k + 8 ≤ 32) : (b.toUInt32 <<< s).toNat = b.toNat * 2 ^ k := by
  have small : k < 32 := by omega
  rw [UInt32.toNat_shiftLeft, UInt8.toNat_toUInt32, amount, Nat.mod_eq_of_lt small,
    Nat.shiftLeft_eq, Nat.mod_eq_of_lt (lane_lt b inside)]

theorem lanes32 (b3 b2 b1 b0 : UInt8) :
    (b3.toUInt32 <<< 24 ||| b2.toUInt32 <<< 16 ||| b1.toUInt32 <<< 8 ||| b0.toUInt32).toNat =
      ((b3.toNat * 256 + b2.toNat) * 256 + b1.toNat) * 256 + b0.toNat := by
  have last : b0.toUInt32.toNat = b0.toNat * 2 ^ 0 := by
    rw [UInt8.toNat_toUInt32, Nat.pow_zero, Nat.mul_one]
  simp only [UInt32.toNat_or]
  rw [lane32 b3 24 rfl (by decide), lane32 b2 16 rfl (by decide), lane32 b1 8 rfl (by decide),
    last, or_lane (s := 16) (t := 24) _ b2 rfl, or_lane (s := 8) (t := 16) _ b1 rfl,
    or_lane (s := 0) (t := 8) _ b0 rfl, Nat.pow_zero, Nat.mul_one]

theorem masked32 (v : UInt32) {mask s : UInt32} (k : Nat) (amount : s.toNat = k)
    (inside : k < 32) (ones : mask.toNat = 255 * 2 ^ k) :
    ((v &&& mask) >>> s).toUInt8.toNat = v.toNat / 2 ^ k % 256 := by
  rw [UInt32.toNat_toUInt8, UInt32.toNat_shiftRight, UInt32.toNat_and, ones, amount,
    Nat.mod_eq_of_lt inside]
  exact and_shiftRight _ _

theorem lowest32 (v : UInt32) : (v &&& 0xff).toUInt8.toNat = v.toNat / 2 ^ 0 % 256 := by
  have ones : UInt32.toNat 0xff = 255 * 2 ^ 0 := rfl
  rw [UInt32.toNat_toUInt8, UInt32.toNat_and, ones]
  exact and_shiftRight _ 0

theorem lane64 (b : UInt8) {s : UInt64} (k : Nat) (amount : s.toNat = k)
    (inside : k + 8 ≤ 64) : (b.toUInt64 <<< s).toNat = b.toNat * 2 ^ k := by
  have small : k < 64 := by omega
  rw [UInt64.toNat_shiftLeft, UInt8.toNat_toUInt64, amount, Nat.mod_eq_of_lt small,
    Nat.shiftLeft_eq, Nat.mod_eq_of_lt (lane_lt b inside)]

theorem lanes64 (b7 b6 b5 b4 b3 b2 b1 b0 : UInt8) :
    (b7.toUInt64 <<< 56 ||| b6.toUInt64 <<< 48 ||| b5.toUInt64 <<< 40 ||| b4.toUInt64 <<< 32 |||
      b3.toUInt64 <<< 24 ||| b2.toUInt64 <<< 16 ||| b1.toUInt64 <<< 8 ||| b0.toUInt64).toNat =
      ((((((b7.toNat * 256 + b6.toNat) * 256 + b5.toNat) * 256 + b4.toNat) * 256 + b3.toNat) * 256
        + b2.toNat) * 256 + b1.toNat) * 256 + b0.toNat := by
  have last : b0.toUInt64.toNat = b0.toNat * 2 ^ 0 := by
    rw [UInt8.toNat_toUInt64, Nat.pow_zero, Nat.mul_one]
  simp only [UInt64.toNat_or]
  rw [lane64 b7 56 rfl (by decide), lane64 b6 48 rfl (by decide), lane64 b5 40 rfl (by decide),
    lane64 b4 32 rfl (by decide), lane64 b3 24 rfl (by decide), lane64 b2 16 rfl (by decide),
    lane64 b1 8 rfl (by decide), last, or_lane (s := 48) (t := 56) _ b6 rfl,
    or_lane (s := 40) (t := 48) _ b5 rfl, or_lane (s := 32) (t := 40) _ b4 rfl,
    or_lane (s := 24) (t := 32) _ b3 rfl, or_lane (s := 16) (t := 24) _ b2 rfl,
    or_lane (s := 8) (t := 16) _ b1 rfl, or_lane (s := 0) (t := 8) _ b0 rfl, Nat.pow_zero,
    Nat.mul_one]

theorem masked64 (v : UInt64) {mask s : UInt64} (k : Nat) (amount : s.toNat = k)
    (inside : k < 64) (ones : mask.toNat = 255 * 2 ^ k) :
    ((v &&& mask) >>> s).toUInt8.toNat = v.toNat / 2 ^ k % 256 := by
  rw [UInt64.toNat_toUInt8, UInt64.toNat_shiftRight, UInt64.toNat_and, ones, amount,
    Nat.mod_eq_of_lt inside]
  exact and_shiftRight _ _

theorem lowest64 (v : UInt64) : (v &&& 0xff).toUInt8.toNat = v.toNat / 2 ^ 0 % 256 := by
  have ones : UInt64.toNat 0xff = 255 * 2 ^ 0 := rfl
  rw [UInt64.toNat_toUInt8, UInt64.toNat_and, ones]
  exact and_shiftRight _ 0

end CprFormal.Library.ByteOrder
