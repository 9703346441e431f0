import Mathlib.Data.List.Basic

/-!
# Parts joined by a separator

Parts in which the separator does not occur are found again by splitting.  An element of
the joined list is the separator or comes from a part.
-/

namespace CprFormal.Library.Joined

variable {α β : Type}

/-- What is written between separators is read back. -/
theorem mapM_splitOn [BEq α] [LawfulBEq α] {sep : α} {parts : List β} {write : β → List α}
    {read : List α → Option β} (back : ∀ x ∈ parts, read (write x) = some x)
    (clean : ∀ x ∈ parts, sep ∉ write x) (nonempty : parts ≠ []) :
    (([sep].intercalate (parts.map write)).splitOn sep).mapM read = some parts := by
  have split : ([sep].intercalate (parts.map write)).splitOn sep = parts.map write := by
    refine List.splitOn_intercalate sep (fun text member => ?_)
      (List.map_eq_nil_iff.not.mpr nonempty)
    obtain ⟨x, inside, rfl⟩ := List.mem_map.mp member
    exact clean x inside
  rw [split]
  clear split clean nonempty
  induction parts with
  | nil => rfl
  | cons x parts ih =>
      rw [List.map_cons, List.mapM_cons, back x List.mem_cons_self,
        ih fun y member => back y (List.mem_cons_of_mem x member)]
      rfl

theorem intercalate_cons {sep : α} (part : List α) {parts : List (List α)} (more : parts ≠ []) :
    [sep].intercalate (part :: parts) = part ++ sep :: [sep].intercalate parts := by
  rw [List.intercalate_cons_of_ne_nil more, List.append_assoc, List.singleton_append]

theorem separator_mem {sep : α} {parts : List (List α)} (two : 1 < parts.length) :
    sep ∈ [sep].intercalate parts := by
  cases parts with
  | nil => exact absurd two (Nat.not_lt_zero 1)
  | cons part parts =>
      rw [intercalate_cons part (List.ne_nil_of_length_pos (Nat.lt_of_succ_lt_succ two))]
      exact List.mem_append_right _ List.mem_cons_self

/-- What holds of the separator and of every element of a part holds everywhere. -/
theorem forall_mem_intercalate {P : α → Prop} {sep : α} {parts : List (List α)} (between : P sep)
    (each : ∀ part ∈ parts, ∀ x ∈ part, P x) : ∀ x ∈ [sep].intercalate parts, P x := by
  induction parts with
  | nil => exact nofun
  | cons part parts ih =>
      have here := each part List.mem_cons_self
      have later := ih fun p member => each p (List.mem_cons_of_mem part member)
      intro x member
      cases parts with
      | nil =>
          rw [List.intercalate_singleton] at member
          exact here x member
      | cons next parts =>
          rw [intercalate_cons part (List.cons_ne_nil next parts)] at member
          rcases List.mem_append.mp member with front | back
          · exact here x front
          · rcases List.mem_cons.mp back with rfl | back
            · exact between
            · exact later x back

theorem length_intercalate_le {sep : α} {parts : List (List α)} {k : Nat}
    (short : ∀ part ∈ parts, part.length ≤ k) :
    ([sep].intercalate parts).length ≤ (k + 1) * parts.length := by
  induction parts with
  | nil => exact Nat.le_refl _
  | cons part parts ih =>
      have here := short part List.mem_cons_self
      have later := ih fun p member => short p (List.mem_cons_of_mem part member)
      rw [List.length_cons, Nat.mul_succ]
      cases parts with
      | nil =>
          rw [List.intercalate_singleton]
          omega
      | cons next parts =>
          rw [intercalate_cons part (List.cons_ne_nil next parts), List.length_append,
            List.length_cons]
          omega

def terminated (sep : α) (parts : List (List α)) : List α := (parts.map (· ++ [sep])).flatten

theorem terminated_append (sep : α) (front back : List (List α)) :
    terminated sep (front ++ back) = terminated sep front ++ terminated sep back := by
  unfold terminated
  rw [List.map_append, List.flatten_append]

theorem terminated_cons (sep : α) (part : List α) (parts : List (List α)) :
    terminated sep (part :: parts) = part ++ sep :: terminated sep parts := by
  unfold terminated
  rw [List.map_cons, List.flatten_cons, List.append_assoc]
  rfl

/-- What stands before a separator is one part or several of them, joined. -/
theorem terminated_cut {sep : α} {parts : List (List α)} (clean : ∀ part ∈ parts, sep ∉ part)
    {text more : List α} (same : terminated sep parts = text ++ sep :: more) :
    ∃ group rest, parts = group ++ rest ∧ group ≠ [] ∧ text = [sep].intercalate group ∧
      more = terminated sep rest := by
  induction parts generalizing text with
  | nil => exact absurd same.symm (List.append_ne_nil_of_right_ne_nil _ (List.cons_ne_nil _ _))
  | cons part parts ih =>
      rw [terminated_cons] at same
      -- The text ends with the part, or goes on behind its separator.
      have here (equal : text = part) (rest : more = terminated sep parts) :
          ∃ group rest, part :: parts = group ++ rest ∧ group ≠ [] ∧
            text = [sep].intercalate group ∧ more = terminated sep rest :=
        ⟨[part], parts, rfl, List.cons_ne_nil _ _, equal.trans List.intercalate_singleton.symm, rest⟩
      rcases List.append_eq_append_iff.mp same with ⟨tail, behind, cut⟩ | ⟨tail, before, cut⟩
      · cases tail with
        | nil =>
            rw [List.append_nil] at behind
            exact here behind (List.cons.inj cut).2.symm
        | cons x tail =>
            obtain ⟨rfl, later⟩ := List.cons.inj cut
            obtain ⟨group, rest, rfl, nonempty, joined, left⟩ :=
              ih (fun p member => clean p (List.mem_cons_of_mem part member)) later
            refine ⟨part :: group, rest, rfl, List.cons_ne_nil _ _, ?_, left⟩
            rw [intercalate_cons part nonempty, behind, joined]
      · cases tail with
        | nil =>
            rw [List.append_nil] at before
            exact here before.symm (List.cons.inj cut).2
        | cons x tail =>
            obtain ⟨rfl, -⟩ := List.cons.inj cut
            refine absurd ?_ (clean part List.mem_cons_self)
            rw [before]
            exact List.mem_append_right _ List.mem_cons_self

/-- Texts with separators behind them that begin the terminated parts are the parts, in
order, each text one or several of them. -/
theorem terminated_groups {sep : α} {parts texts : List (List α)}
    (clean : ∀ part ∈ parts, sep ∉ part) {more : List α}
    (same : terminated sep parts = terminated sep texts ++ more) :
    ∃ (groups : List (List (List α))) (rest : List (List α)),
      parts = groups.flatten ++ rest ∧ (∀ group ∈ groups, group ≠ []) ∧
      texts = groups.map [sep].intercalate ∧ more = terminated sep rest := by
  induction texts generalizing parts with
  | nil => exact ⟨[], parts, rfl, fun _ member => absurd member List.not_mem_nil, rfl, same.symm⟩
  | cons text texts ih =>
      rw [terminated_cons, List.append_assoc, List.cons_append] at same
      obtain ⟨group, later, rfl, nonempty, joined, left⟩ := terminated_cut clean same
      obtain ⟨groups, rest, rfl, all, texts_, more_⟩ :=
        ih (fun part member => clean part (List.mem_append_right _ member)) left.symm
      refine ⟨group :: groups, rest, ?_, ?_, ?_, more_⟩
      · rw [List.flatten_cons, List.append_assoc]
      · intro g member
        rcases List.mem_cons.mp member with rfl | inside
        · exact nonempty
        · exact all g inside
      · rw [joined, texts_, List.map_cons]

end CprFormal.Library.Joined
