import Mathlib.Order.Basic

/-!
# Character classes in the C locale

The bytes from 128 on belong to no class and have no case.
-/

namespace CprFormal.Strchar.Ctype

def toupper (b : UInt8) : UInt8 := if 97 ≤ b ∧ b ≤ 122 then b - 32 else b

def tolower (b : UInt8) : UInt8 := if 65 ≤ b ∧ b ≤ 90 then b + 32 else b

def isspace (b : UInt8) : Bool := b == 32 || (9 ≤ b && b ≤ 13)

def isalnum (b : UInt8) : Bool :=
  (48 ≤ b && b ≤ 57) || (65 ≤ b && b ≤ 90) || (97 ≤ b && b ≤ 122)

theorem toupper_eq_zero (b : UInt8) : toupper b = 0 ↔ b = 0 := by
  unfold toupper
  split
  · rename_i lower
    constructor
    · intro zero
      grind
    · intro zero
      grind
  · rfl

theorem tolower_eq_zero (b : UInt8) : tolower b = 0 ↔ b = 0 := by
  unfold tolower
  split
  · rename_i upper
    constructor
    · intro zero
      grind
    · intro zero
      grind
  · rfl

theorem isspace_of_isalnum {b : UInt8} (alnum : isalnum b = true) : isspace b = false := by
  simp only [isalnum, Bool.or_eq_true, Bool.and_eq_true, decide_eq_true_eq] at alnum
  simp only [isspace, Bool.or_eq_false_iff, beq_eq_false_iff_ne, Bool.and_eq_false_iff,
    decide_eq_false_iff_not]
  grind

/-- Only letters have a case. -/
theorem toupper_cases (b : UInt8) :
    toupper b = b ∨ (isalnum b = true ∧ isalnum (toupper b) = true) := by
  obtain ⟨b⟩ := b
  revert b
  decide +kernel

theorem tolower_cases (b : UInt8) :
    tolower b = b ∨ (isalnum b = true ∧ isalnum (tolower b) = true) := by
  obtain ⟨b⟩ := b
  revert b
  decide +kernel

theorem toupper_toupper (b : UInt8) : toupper (toupper b) = toupper b := by
  obtain ⟨b⟩ := b
  revert b
  decide +kernel

theorem tolower_tolower (b : UInt8) : tolower (tolower b) = tolower b := by
  obtain ⟨b⟩ := b
  revert b
  decide +kernel

end CprFormal.Strchar.Ctype
