import Mathlib.Data.List.Forall2
import Mathlib.Data.List.TakeWhile

/-!
# Lists cut and compared

A list cut at the first occurrence of an element, a list with some of its elements left
out, and two lists that are related element by element.
-/

namespace CprFormal.Library.Lists

/-- A list up to the first occurrence of an element. -/
theorem takeWhile_split {α : Type} [BEq α] [LawfulBEq α] (c : α) (l : List α) :
    l.takeWhile (· != c) ++ l.dropWhile (· != c) = l ∧
    (∀ x ∈ l.takeWhile (· != c), x ≠ c) ∧
    ∀ x ∈ (l.dropWhile (· != c)).head?, x = c := by
  refine ⟨List.takeWhile_append_dropWhile, fun x member => ?_, fun x first => ?_⟩
  · exact bne_iff_ne.mp (List.mem_takeWhile_imp (p := (· != c)) member)
  · have stop := List.head?_dropWhile_not (· != c) l
    rw [first] at stop
    simpa using stop

theorem takeWhile_of_not_mem {α : Type} [BEq α] [LawfulBEq α] {c : α} {l : List α}
    (absent : c ∉ l) : l.takeWhile (· != c) = l :=
  List.takeWhile_eq_self_iff.mpr fun _ member => bne_iff_ne.mpr fun same => absent (same ▸ member)

theorem map_eq_self_iff {α : Type} {f : α → α} {l : List α} :
    l.map f = l ↔ ∀ x ∈ l, f x = x := by
  have identity := List.map_inj_left (l := l) (f := f) (g := id)
  rwa [List.map_id] at identity

/-- When no element is missing from a part of a list, the part is the whole. -/
theorem filterMap_whole {α β : Type} {f g : α → Option β} {l : List α}
    (part : ∀ x ∈ l, g x = none ∨ g x = f x) :
    (l.filterMap g).length ≤ (l.filterMap f).length ∧
    (l.filterMap g = l.filterMap f → ∀ x ∈ l, g x = f x) := by
  induction l with
  | nil => exact ⟨Nat.le_refl _, fun _ _ => nofun⟩
  | cons x l ih =>
      obtain ⟨shorter, whole⟩ := ih fun y member => part y (List.mem_cons_of_mem x member)
      have rest (same : g x = f x) (both : l.filterMap g = l.filterMap f) :
          ∀ y ∈ x :: l, g y = f y := by
        intro y member
        rcases List.mem_cons.mp member with rfl | later
        · exact same
        · exact whole both y later
      rcases part x List.mem_cons_self with dropped | same
      · rw [List.filterMap_cons_none dropped]
        cases first : f x with
        | none =>
            rw [List.filterMap_cons_none first]
            exact ⟨shorter, rest (dropped.trans first.symm)⟩
        | some b =>
            rw [List.filterMap_cons_some first]
            refine ⟨Nat.le_succ_of_le shorter, fun equal => ?_⟩
            have lengths := congrArg List.length equal
            rw [List.length_cons] at lengths
            omega
      · cases first : f x with
        | none =>
            rw [List.filterMap_cons_none (same.trans first), List.filterMap_cons_none first]
            exact ⟨shorter, rest same⟩
        | some b =>
            rw [List.filterMap_cons_some (same.trans first), List.filterMap_cons_some first]
            exact ⟨Nat.succ_le_succ shorter, fun equal => rest same (List.cons.inj equal).2⟩

/-- A relation that comes down to the left elements. -/
theorem forall₂_iff_left {α β : Type} {R S : α → β → Prop} {P : α → Prop} {xs : List α}
    {ys : List β} (related : List.Forall₂ S xs ys)
    (iff : ∀ x ∈ xs, ∀ y, S x y → (R x y ↔ P x)) :
    List.Forall₂ R xs ys ↔ ∀ x ∈ xs, P x := by
  induction related with
  | nil => simp
  | cons first rest ih =>
      have later := ih fun x member => iff x (List.mem_cons_of_mem _ member)
      rw [List.forall₂_cons, List.forall_mem_cons, iff _ List.mem_cons_self _ first, later]

end CprFormal.Library.Lists
