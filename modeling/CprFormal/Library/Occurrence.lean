import CprFormal.Library.FlatMemory

/-!
# Occurrences of one list in another

A list occurs in another one at an index when it begins what is left from there on.
What is appended behind an occurrence does not matter to it.
-/

namespace CprFormal.Library.Occurrence

open CprFormal.Library.FlatMemory

variable {α : Type}

/-- `d` occurs in `l` at the index `i`. -/
def Occurs (d l : List α) (i : Nat) : Prop := d <+: l.drop i

/-- A non-empty list occurs inside the other one. -/
theorem Occurs.inside {d l : List α} {i : Nat} (occurs : Occurs d l i) (nonempty : d ≠ []) :
    i + d.length ≤ l.length := by
  have positive := List.length_pos_of_ne_nil nonempty
  have shorter := occurs.length_le
  rw [List.length_drop] at shorter
  omega

theorem infix_iff_occurs {d l : List α} : d <:+: l ↔ ∃ i, Occurs d l i := by
  constructor
  · rintro ⟨front, back, rfl⟩
    refine ⟨front.length, ?_⟩
    unfold Occurs
    rw [List.append_assoc, List.drop_left]
    exact List.prefix_append d back
  · rintro ⟨i, back, same⟩
    refine ⟨l.take i, back, ?_⟩
    rw [List.append_assoc, same, List.take_append_drop]

/-- An index at which there is room for `d` in the front of a list. -/
theorem occurs_append {d l back : List α} {i : Nat} (inside : i + d.length ≤ l.length) :
    Occurs d (l ++ back) i ↔ Occurs d l i := by
  unfold Occurs
  rw [List.drop_append_of_le_length (by omega)]
  constructor
  · intro begins
    apply List.prefix_of_prefix_length_le begins (List.prefix_append _ _)
    rw [List.length_drop]
    omega
  · intro begins
    exact begins.trans (List.prefix_append _ _)

/-- Occurrences in memory. -/
theorem occurs_slice {m : Memory α} {a n i : Nat} {d : List α} (inside : i + d.length ≤ n) :
    Occurs d (m.slice a n) i ↔ m.slice (a + i) d.length = d := by
  unfold Occurs
  rw [m.slice_drop a (show i ≤ n by omega), m.prefix_slice_iff _ (by omega)]

/-- `line` is what lies before the first occurrence of `d` in `l` from the index `low`
on. -/
structure FirstFrom (low : Nat) (d l line : List α) : Prop where
  begins : line ++ d <+: l
  behind : low ≤ line.length
  before : ∀ i, low ≤ i → i < line.length → ¬ Occurs d l i

theorem FirstFrom.occurs {low : Nat} {d l line : List α} (first : FirstFrom low d l line) :
    Occurs d l line.length := by
  obtain ⟨back, rfl⟩ := first.begins
  unfold Occurs
  rw [List.append_assoc, List.drop_left]
  exact List.prefix_append d back

/-- The search may begin later when there is no occurrence in between. -/
theorem FirstFrom.earlier {low low' : Nat} {d l line : List α} (first : FirstFrom low' d l line)
    (le : low ≤ low') (between : ∀ i, low ≤ i → i < low' → ¬ Occurs d l i) :
    FirstFrom low d l line where
  begins := first.begins
  behind := Nat.le_trans le first.behind
  before i start stop := by
    by_cases late : low' ≤ i
    · exact first.before i late stop
    · exact between i start (Nat.lt_of_not_le late)

end CprFormal.Library.Occurrence
