import Mathlib.Data.List.Basic
import Mathlib.Data.List.TakeDrop

/-!
# Lines, and lines in pieces

A text is cut behind every separator; its last line may end without one.  A reader whose
buffer holds `n` elements cuts each line again behind every `n` of them.
-/

namespace CprFormal.Library.Lines

variable {α : Type} {n : Nat}

/-- A line cut behind every `n` elements. -/
def cut (n : Nat) (line : List α) : List (List α) :=
  if 0 < n ∧ n < line.length then line.take n :: cut n (line.drop n) else [line]
termination_by line.length
decreasing_by
  rw [List.length_drop]
  omega

theorem cut_short {line : List α} (short : line.length ≤ n) : cut n line = [line] := by
  rw [cut, if_neg fun long => Nat.not_lt_of_le short long.2]

theorem cut_long {line : List α} (positive : 0 < n) (long : n < line.length) :
    cut n line = line.take n :: cut n (line.drop n) := by
  rw [cut, if_pos ⟨positive, long⟩]

theorem flatten_cut (n : Nat) (line : List α) : (cut n line).flatten = line := by
  fun_induction cut n line with
  | case1 line long ih => rw [List.flatten_cons, ih, List.take_append_drop]
  | case2 line short => exact List.flatten_singleton

/-- `line` is the first line of the text in which `rest` follows it. -/
structure Leads (sep : α) (line rest : List α) : Prop where
  nonempty : line ≠ []
  inner : sep ∉ line.dropLast
  ended : line.getLast? = some sep ∨ rest = []

variable {sep : α}

/-- What is left of a line when something is taken from its front. -/
theorem Leads.drop {line rest : List α} (leads : Leads sep line rest) {n : Nat}
    (short : n < line.length) : Leads sep (line.drop n) rest := by
  refine ⟨fun empty => ?_, fun inside => ?_, ?_⟩
  · have none_left := List.drop_eq_nil_iff.mp empty
    omega
  · rw [List.dropLast_drop_eq_drop_dropLast] at inside
    exact leads.inner (List.mem_of_mem_drop inside)
  · rw [List.getLast?_drop, if_neg (Nat.not_le_of_lt short)]
    exact leads.ended

variable [DecidableEq α]

/-- The lines of a text, each with the separator that ends it. -/
def lines (sep : α) : List α → List (List α)
  | [] => []
  | b :: text =>
      if b = sep then [b] :: lines sep text
      else
        match lines sep text with
        | [] => [[b]]
        | line :: more => (b :: line) :: more

theorem lines_leads {line rest : List α} (leads : Leads sep line rest) :
    lines sep (line ++ rest) = line :: lines sep rest := by
  induction line with
  | nil => exact absurd rfl leads.nonempty
  | cons b line ih =>
      cases line with
      | nil =>
          rw [List.singleton_append, lines]
          by_cases last : b = sep
          · rw [if_pos last]
          · have ended : rest = [] := leads.ended.resolve_left fun same =>
              last (Option.some.inj same)
            subst ended
            rw [if_neg last]
            rfl
      | cons c line =>
          have later := ih (leads.drop (show 1 < (b :: c :: line).length by simp))
          have other : b ≠ sep := fun same =>
            leads.inner (same ▸ List.mem_cons_self)
          rw [List.cons_append, lines, if_neg other, later]

theorem exists_leads (sep : α) {text : List α} (nonempty : text ≠ []) :
    ∃ line rest, text = line ++ rest ∧ Leads sep line rest := by
  induction text with
  | nil => exact absurd rfl nonempty
  | cons b text ih =>
      by_cases last : b = sep
      · exact ⟨[b], text, rfl, List.cons_ne_nil _ _, List.not_mem_nil,
          .inl (congrArg some last)⟩
      · by_cases empty : text = []
        · exact ⟨[b], [], by rw [empty]; rfl, List.cons_ne_nil _ _, List.not_mem_nil, .inr rfl⟩
        · obtain ⟨line, rest, rfl, leads⟩ := ih empty
          obtain ⟨c, line, rfl⟩ := List.exists_cons_of_ne_nil leads.nonempty
          refine ⟨b :: c :: line, rest, rfl, List.cons_ne_nil _ _, fun inside => ?_, ?_⟩
          · rcases List.mem_cons.mp inside with same | later
            · exact last same.symm
            · exact leads.inner later
          · exact leads.ended.imp_left fun ended => by rw [List.getLast?_cons_cons, ended]

/-- A text is nothing, or a first line and the rest. -/
theorem lines_induction (sep : α) {P : List α → Prop} (nil : P [])
    (line : ∀ line rest, Leads sep line rest → P rest → P (line ++ rest)) (text : List α) :
    P text := by
  by_cases empty : text = []
  · rw [empty]
    exact nil
  · obtain ⟨first, rest, split, leads⟩ := exists_leads sep empty
    have shorter : rest.length < text.length := by
      have some_taken := List.length_pos_iff.mpr leads.nonempty
      rw [split, List.length_append]
      omega
    rw [split]
    exact line first rest leads (lines_induction sep nil line rest)
termination_by text.length

theorem flatten_lines (sep : α) (text : List α) : (lines sep text).flatten = text := by
  induction text using lines_induction sep with
  | nil => rfl
  | line line rest leads ih => rw [lines_leads leads, List.flatten_cons, ih]

/-- Behind some of its lines a text goes on with the others. -/
theorem lines_behind {text : List α} {front back : List (List α)}
    (split : lines sep text = front ++ back) : lines sep back.flatten = back := by
  induction front generalizing text with
  | nil =>
      rw [List.nil_append] at split
      rw [← split, flatten_lines]
  | cons first front ih =>
      by_cases empty : text = []
      · subst empty
        cases split
      · obtain ⟨line, rest, rfl, leads⟩ := exists_leads sep empty
        rw [lines_leads leads, List.cons_append] at split
        exact ih (List.cons.inj split).2

/-- What a reader with room for `n` elements is given of a text. -/
def pieces (n : Nat) (sep : α) (text : List α) : List (List α) := (lines sep text).flatMap (cut n)

theorem pieces_leads {line rest : List α} (leads : Leads sep line rest) :
    pieces n sep (line ++ rest) = cut n line ++ pieces n sep rest := by
  unfold pieces
  rw [lines_leads leads, List.flatMap_cons]

/-- The first piece is the first line as far as there is room, and cutting goes on
behind it. -/
theorem pieces_cons {line rest : List α} (leads : Leads sep line rest) (positive : 0 < n) :
    pieces n sep (line ++ rest) = line.take n :: pieces n sep (line.drop n ++ rest) := by
  rw [pieces_leads leads]
  by_cases long : n < line.length
  · rw [cut_long positive long, pieces_leads (leads.drop long), List.cons_append]
  · have short := Nat.le_of_not_lt long
    rw [cut_short short, List.take_of_length_le short, List.drop_of_length_le short]
    rfl

theorem flatten_pieces (n : Nat) (sep : α) (text : List α) : (pieces n sep text).flatten = text := by
  induction text using lines_induction sep with
  | nil => rfl
  | line line rest leads ih => rw [pieces_leads leads, List.flatten_append, flatten_cut, ih]

/-- With room for every line nothing is cut. -/
theorem pieces_whole {text : List α} (fits : ∀ line ∈ lines sep text, line.length ≤ n) :
    pieces n sep text = lines sep text := by
  unfold pieces
  rw [List.flatMap_congr fun line member => cut_short (fits line member)]
  exact List.flatMap_singleton' _

end CprFormal.Library.Lines
