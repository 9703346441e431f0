import CprFormal.Strchar.Ctype
import CprFormal.Strchar.Strlen

/-!
# Comparing strings without case

`cpr_match` compares two texts letter by letter in lower case, so texts that match
have the same length, and a text matches each of its case-converted forms.
-/

namespace CprFormal.Strchar.Compare

open CprFormal.Strchar.Ctype CprFormal.Strchar.Strlen

/-- `cpr_match` on two strings: `strcasecmp(s1, s2) == 0` -/
def cprMatch (s1 s2 : CString) : Bool :=
  decide (s1.bytes.map tolower = s2.bytes.map tolower)

theorem cprMatch_iff (s1 s2 : CString) :
    cprMatch s1 s2 = true ↔ s1.bytes.map tolower = s2.bytes.map tolower :=
  decide_eq_true_iff

theorem length_eq_of_cprMatch {s1 s2 : CString} (same : cprMatch s1 s2 = true) :
    s1.length = s2.length := by
  have lengths := congrArg List.length ((cprMatch_iff s1 s2).mp same)
  rwa [List.length_map, List.length_map] at lengths

theorem tolower_toupper (b : UInt8) : tolower (toupper b) = tolower b := by
  obtain ⟨b⟩ := b
  revert b
  decide +kernel

/-- A text differs from its lower case only where it has a capital letter. -/
theorem tolower_eq_self_iff (b : UInt8) : tolower b = b ↔ ¬ (65 ≤ b ∧ b ≤ 90) := by
  obtain ⟨b⟩ := b
  revert b
  decide +kernel

/-- What is stored in lower case and cut is matched by the whole text exactly when
nothing has been cut off. -/
theorem cprMatch_cut_iff {s stored : CString} {convert : UInt8 → UInt8} {limit : Nat}
    (converted : stored.bytes = (s.bytes.take limit).map convert)
    (folds : ∀ b, tolower (convert b) = tolower b) :
    cprMatch s stored = true ↔ s.length ≤ limit := by
  constructor
  · intro same
    have lengths := length_eq_of_cprMatch same
    unfold CString.length at lengths
    rw [converted, List.length_map, List.length_take] at lengths
    unfold CString.length
    omega
  · intro short
    rw [cprMatch_iff, converted, List.take_of_length_le short, List.map_map]
    exact List.map_congr_left fun b _ => (folds b).symm

end CprFormal.Strchar.Compare
