import Mathlib.Data.Nat.Digits.Lemmas
import Mathlib.Order.Basic

/-!
# Decimal texts

A decimal text is canonical when it has an optional sign, at least one digit, no
leading zero and no negative zero.  Each integer has exactly one canonical text.
-/

namespace CprFormal.Library.Decimal

/-- The character of a digit. -/
def character (d : Nat) : UInt8 := UInt8.ofNat (48 + d)

/-- The digits of a number, the last one of the text first; there are none for zero. -/
def digits (n : Nat) : List UInt8 := (Nat.digits 10 n).map character

def numeral (n : Nat) : List UInt8 := if n = 0 then [48] else (digits n).reverse

/-- The canonical text of an integer. -/
def decimal (v : Int) : List UInt8 :=
  if v < 0 then 45 :: numeral v.natAbs else numeral v.natAbs

/-- The number that a row of digits stands for. -/
def readNat (w : List UInt8) : Nat := Nat.ofDigits 10 (w.reverse.map fun c => c.toNat - 48)

/-- A row of digits with an optional sign. -/
def readInt (w : List UInt8) : Int :=
  if w.head? = some 45 then -(readNat w.tail : Int) else readNat w

/-- Digits without a leading zero. -/
structure Numeral (w : List UInt8) : Prop where
  nonempty : w ≠ []
  digits : ∀ c ∈ w, 48 ≤ c ∧ c ≤ 57
  leading : w.head? = some 48 → w = [48]

/-- A numeral, or a minus sign and a numeral other than zero. -/
def Canonical (w : List UInt8) : Prop :=
  Numeral w ∨ ∃ rest, w = 45 :: rest ∧ Numeral rest ∧ rest ≠ [48]

theorem character_toNat {d : Nat} (small : d < 10) : (character d).toNat - 48 = d := by
  revert d
  decide +kernel

theorem character_digit {d : Nat} (small : d < 10) : 48 ≤ character d ∧ character d ≤ 57 := by
  revert d
  decide +kernel

theorem character_eq_zero {d : Nat} (small : d < 10) (zero : character d = 48) : d = 0 := by
  have same := character_toNat small
  rw [zero] at same
  exact same.symm

theorem character_sub {c : UInt8} (digit : 48 ≤ c ∧ c ≤ 57) :
    c.toNat - 48 < 10 ∧ character (c.toNat - 48) = c := by
  obtain ⟨c⟩ := c
  revert c
  decide +kernel

/-- The digits are those of the quotient behind the remainder. -/
theorem digits_step {n : Nat} (positive : 0 < n) :
    digits n = character (n % 10) :: digits (n / 10) := by
  unfold digits
  rw [Nat.digits_def' (by decide) positive, List.map_cons]

theorem digits_zero : digits 0 = [] := by
  unfold digits
  rw [Nat.digits_zero, List.map_nil]

theorem digits_ne_nil {n : Nat} (positive : 0 < n) : digits n ≠ [] := by
  rw [digits_step positive]
  exact List.cons_ne_nil _ _

theorem digit_of_mem_digits {n : Nat} {c : UInt8} (member : c ∈ digits n) :
    48 ≤ c ∧ c ≤ 57 := by
  obtain ⟨d, digit, rfl⟩ := List.mem_map.mp member
  exact character_digit (Nat.digits_lt_base (by decide) digit)

/-- The digits read back. -/
theorem readNat_reverse_digits (n : Nat) : readNat (digits n).reverse = n := by
  have back : (digits n).map (fun c => c.toNat - 48) = Nat.digits 10 n := by
    unfold digits
    rw [List.map_map]
    refine (List.map_congr_left fun d member => ?_).trans (List.map_id _)
    exact character_toNat (Nat.digits_lt_base (by decide) member)
  rw [readNat, List.reverse_reverse, back, Nat.ofDigits_digits]

theorem readNat_numeral (n : Nat) : readNat (numeral n) = n := by
  unfold numeral
  split
  · rename_i zero
    rw [zero]
    rfl
  · exact readNat_reverse_digits n

theorem numeral_numeral (n : Nat) : Numeral (numeral n) := by
  unfold numeral
  split
  · refine ⟨List.cons_ne_nil _ _, fun c member => ?_, fun _ => rfl⟩
    rw [List.mem_singleton.mp member]
    exact ⟨by decide, by decide⟩
  · rename_i positive
    have some_digit := digits_ne_nil (Nat.pos_of_ne_zero positive)
    refine ⟨fun none => some_digit (List.reverse_eq_nil_iff.mp none),
      fun c member => digit_of_mem_digits (List.mem_reverse.mp member), fun zero => ?_⟩
    rw [List.head?_reverse] at zero
    have last : (Nat.digits 10 n).getLast? =
        some ((Nat.digits 10 n).getLast (Nat.digits_ne_nil_iff_ne_zero.mpr positive)) :=
      List.getLast?_eq_some_getLast _
    rw [digits, List.getLast?_map, last] at zero
    have leading := Nat.getLast_digit_ne_zero 10 positive
    have digit := Nat.digits_lt_base (by decide) (List.getLast_mem
      (Nat.digits_ne_nil_iff_ne_zero.mpr positive) : _ ∈ Nat.digits 10 n)
    exact absurd (character_eq_zero digit (Option.some.inj zero)) leading

/-- A numeral is the one of its number. -/
theorem numeral_readNat {w : List UInt8} (numeral_w : Numeral w) : numeral (readNat w) = w := by
  by_cases zero : w.head? = some 48
  · rw [numeral_w.leading zero]
    rfl
  · have small : ∀ d ∈ w.reverse.map (fun c => c.toNat - 48), d < 10 := by
      intro d member
      obtain ⟨c, digit, rfl⟩ := List.mem_map.mp member
      exact (character_sub (numeral_w.digits c (List.mem_reverse.mp digit))).1
    have values : w.reverse.map (fun c => c.toNat - 48) ≠ [] := fun none =>
      numeral_w.nonempty (List.reverse_eq_nil_iff.mp (List.map_eq_nil_iff.mp none))
    have leading (h : w.reverse.map (fun c => c.toNat - 48) ≠ []) :
        (w.reverse.map fun c => c.toNat - 48).getLast h ≠ 0 := by
      intro last
      obtain ⟨c, rest, rfl⟩ := List.exists_cons_of_ne_nil numeral_w.nonempty
      have first := character_sub (numeral_w.digits c List.mem_cons_self)
      rw [List.getLast_map, List.getLast_reverse, List.head_cons] at last
      rw [last] at first
      exact zero (congrArg some first.2.symm)
    have back := Nat.digits_ofDigits 10 (by decide) _ small leading
    have positive : readNat w ≠ 0 := by
      intro none
      rw [readNat] at none
      rw [none, Nat.digits_zero] at back
      exact values back.symm
    have characters : (w.reverse.map fun c => c.toNat - 48).map character = w.reverse := by
      rw [List.map_map]
      refine (List.map_congr_left fun c member => ?_).trans (List.map_id _)
      exact (character_sub (numeral_w.digits c (List.mem_reverse.mp member))).2
    rw [numeral, if_neg positive, digits, readNat, back, characters, List.reverse_reverse]

theorem numeral_eq_zero_iff (n : Nat) : numeral n = [48] ↔ n = 0 := by
  constructor
  · intro zero
    have back := congrArg readNat zero
    rw [readNat_numeral] at back
    exact back
  · rintro rfl
    rfl

theorem head_ne_sign {w : List UInt8} (numeral_w : Numeral w) : w.head? ≠ some 45 := by
  intro sign
  have digit := numeral_w.digits 45 (List.mem_of_head? sign)
  exact absurd digit.1 (by decide)

theorem readInt_numeral {w : List UInt8} (numeral_w : Numeral w) : readInt w = readNat w :=
  if_neg (head_ne_sign numeral_w)

theorem readInt_sign (w : List UInt8) : readInt (45 :: w) = -(readNat w : Int) := if_pos rfl

/-- The canonical texts are those of the integers they stand for. -/
theorem canonical_iff {w : List UInt8} {v : Int} :
    Canonical w ∧ readInt w = v ↔ w = decimal v := by
  constructor
  · rintro ⟨plain | ⟨rest, rfl, body, nonzero⟩, rfl⟩
    · rw [readInt_numeral plain, decimal, if_neg (by omega), Int.natAbs_natCast,
        numeral_readNat plain]
    · have positive : readNat rest ≠ 0 := fun none => nonzero (by
        rw [← numeral_readNat body, none]
        rfl)
      rw [readInt_sign, decimal, if_pos (by omega), Int.natAbs_neg, Int.natAbs_natCast,
        numeral_readNat body]
  · rintro rfl
    unfold decimal
    split
    · rename_i negative
      refine ⟨.inr ⟨_, rfl, numeral_numeral _, fun zero => ?_⟩, ?_⟩
      · have none := (numeral_eq_zero_iff _).mp zero
        omega
      · rw [readInt_sign, readNat_numeral]
        omega
    · rename_i positive
      refine ⟨.inl (numeral_numeral _), ?_⟩
      rw [readInt_numeral (numeral_numeral _), readNat_numeral]
      omega

theorem decimal_of_pos {v : Int} {n : Nat} (value : v = n) (positive : 0 < n) :
    decimal v = (digits n).reverse := by
  rw [decimal, if_neg (by omega), value, Int.natAbs_natCast, numeral, if_neg (by omega)]

theorem decimal_of_neg {v : Int} {n : Nat} (value : -v = n) (positive : 0 < n) :
    decimal v = 45 :: (digits n).reverse := by
  rw [decimal, if_pos (by omega), show v.natAbs = n by omega, numeral, if_neg (by omega)]

end CprFormal.Library.Decimal
