import Mathlib.Data.List.Basic
import Mathlib.Order.Basic

/-!
# Hexadecimal texts

A byte is written as two digits, the high half first.  Reading takes the complete
pairs of digits a text begins with; digits of either case are read.
-/

namespace CprFormal.Library.Hexadecimal

/-- The digit of a number below 16. -/
def digit (v : Nat) : UInt8 := if v < 10 then UInt8.ofNat (48 + v) else UInt8.ofNat (87 + v)

/-- The number of a digit of either case. -/
def value (c : UInt8) : Option Nat :=
  if 48 ≤ c ∧ c ≤ 57 then some (c.toNat - 48)
  else if 97 ≤ c ∧ c ≤ 102 then some (c.toNat - 87)
  else if 65 ≤ c ∧ c ≤ 70 then some (c.toNat - 55)
  else none

def encode (bytes : List UInt8) : List UInt8 :=
  bytes.flatMap fun b => [digit (b.toNat / 16), digit (b.toNat % 16)]

/-- The bytes of the complete pairs of digits at the front of a text. -/
def decode : List UInt8 → List UInt8
  | a :: b :: rest =>
      match value a, value b with
      | some x, some y => UInt8.ofNat (16 * x + y) :: decode rest
      | _, _ => []
  | _ => []

theorem value_lt {c : UInt8} {v : Nat} (read : value c = some v) : v < 16 := by
  have bounded (c : UInt8) : (value c).all (fun v => decide (v < 16)) = true := by
    obtain ⟨c⟩ := c
    revert c
    decide +kernel
  have here := bounded c
  rw [read] at here
  exact of_decide_eq_true here

theorem value_digit {v : Nat} (small : v < 16) : value (digit v) = some v := by
  revert v
  decide +kernel

/-- The digits in use are those from `0` to `9` and from `a` to `f`. -/
theorem digit_lower {v : Nat} (small : v < 16) :
    48 ≤ digit v ∧ digit v ≤ 57 ∨ 97 ≤ digit v ∧ digit v ≤ 102 := by
  revert v
  decide +kernel

theorem encode_cons (b : UInt8) (bytes : List UInt8) :
    encode (b :: bytes) = digit (b.toNat / 16) :: digit (b.toNat % 16) :: encode bytes := rfl

theorem encode_length (bytes : List UInt8) : (encode bytes).length = 2 * bytes.length := by
  induction bytes with
  | nil => rfl
  | cons b bytes ih =>
      rw [encode_cons, List.length_cons, List.length_cons, List.length_cons, ih]
      rfl

theorem halves_lt (b : UInt8) : b.toNat / 16 < 16 ∧ b.toNat % 16 < 16 := by
  have small := b.toNat_lt
  exact ⟨by omega, by omega⟩

/-- Every character of a written text is a digit. -/
theorem exists_digit_of_mem_encode {bytes : List UInt8} {c : UInt8} (member : c ∈ encode bytes) :
    ∃ v, v < 16 ∧ c = digit v := by
  obtain ⟨b, _, pair⟩ := List.mem_flatMap.mp member
  obtain ⟨high, low⟩ := halves_lt b
  rcases List.mem_cons.mp pair with rfl | last
  · exact ⟨_, high, rfl⟩
  · exact ⟨_, low, List.mem_singleton.mp last⟩

theorem decode_cons {a b : UInt8} {x y : Nat} (first : value a = some x)
    (second : value b = some y) (rest : List UInt8) :
    decode (a :: b :: rest) = UInt8.ofNat (16 * x + y) :: decode rest := by
  rw [decode, first, second]

/-- The round trip, also through a conversion that keeps the numbers of the digits. -/
theorem decode_map_encode {f : UInt8 → UInt8} (kept : ∀ v, v < 16 → value (f (digit v)) = some v)
    (bytes : List UInt8) : decode ((encode bytes).map f) = bytes := by
  induction bytes with
  | nil => rfl
  | cons b bytes ih =>
      obtain ⟨high, low⟩ := halves_lt b
      rw [encode_cons, List.map_cons, List.map_cons, decode_cons (kept _ high) (kept _ low), ih,
        Nat.div_add_mod, UInt8.ofNat_toNat]

/-- Without a digit in one of its places the first pair is not complete. -/
theorem decode_incomplete {a b : UInt8} (incomplete : value a = none ∨ value b = none)
    (rest : List UInt8) : decode (a :: b :: rest) = [] := by
  rcases incomplete with first | second
  · rw [decode, first]
  · rw [decode, second]
    cases value a <;> rfl

end CprFormal.Library.Hexadecimal
