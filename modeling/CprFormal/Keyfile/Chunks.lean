import Mathlib.Data.List.Basic
import CprFormal.Keyfile.Model

/-!
# What `fgets` takes from a file

The calls of `fgets` in `load_keyfile` cut a file into chunks.  A chunk has at most
95 bytes and a newline only at its end; a line within the buffer is one chunk.
-/

namespace CprFormal.Keyfile.Chunks

open CprFormal.Keyfile.Model

theorem takeLine_line {text rest : List UInt8} (oneLine : 10 ∉ text) {n : Nat}
    (fits : text.length < n) : takeLine n (text ++ 10 :: rest) = (text ++ [10], rest) := by
  induction text generalizing n with
  | nil =>
      cases n with
      | zero => exact absurd fits (Nat.not_lt_zero _)
      | succ n => rfl
  | cons b text ih =>
      cases n with
      | zero => exact absurd fits (Nat.not_lt_zero _)
      | succ n =>
          have other : b ≠ 10 := (List.ne_of_not_mem_cons oneLine).symm
          have later := ih (List.not_mem_of_not_mem_cons oneLine) (Nat.lt_of_succ_lt_succ fits)
          rw [List.cons_append, takeLine, if_neg other, later]
          rfl

/-- Without a newline the buffer is filled. -/
theorem takeLine_full {text : List UInt8} (oneLine : 10 ∉ text) (rest : List UInt8) :
    takeLine text.length (text ++ rest) = (text, rest) := by
  induction text with
  | nil => rfl
  | cons b text ih =>
      have other : b ≠ 10 := (List.ne_of_not_mem_cons oneLine).symm
      rw [List.length_cons, List.cons_append, takeLine, if_neg other,
        ih (List.not_mem_of_not_mem_cons oneLine)]

/-- The end of the file comes before a newline. -/
theorem takeLine_end {text : List UInt8} (oneLine : 10 ∉ text) {n : Nat}
    (fits : text.length ≤ n) : takeLine n text = (text, []) := by
  induction text generalizing n with
  | nil =>
      cases n with
      | zero => rfl
      | succ n => rfl
  | cons b text ih =>
      cases n with
      | zero => exact absurd fits (Nat.not_succ_le_zero _)
      | succ n =>
          have other : b ≠ 10 := (List.ne_of_not_mem_cons oneLine).symm
          rw [takeLine, if_neg other,
            ih (List.not_mem_of_not_mem_cons oneLine) (Nat.le_of_succ_le_succ fits)]

theorem takeLine_append (n : Nat) (file : List UInt8) :
    (takeLine n file).1 ++ (takeLine n file).2 = file := by
  induction n generalizing file with
  | zero => rfl
  | succ n ih =>
      cases file with
      | nil => rfl
      | cons b file =>
          rw [takeLine]
          split
          · rfl
          · exact congrArg (b :: ·) (ih file)

/-- What one call takes: bytes up to a newline that fit into the buffer. -/
theorem takeLine_chunk (n : Nat) (file : List UInt8) :
    (takeLine n file).1.length ≤ n ∧ 10 ∉ (takeLine n file).1.dropLast := by
  induction n generalizing file with
  | zero => exact ⟨Nat.le_refl _, List.not_mem_nil⟩
  | succ n ih =>
      cases file with
      | nil => exact ⟨Nat.zero_le _, List.not_mem_nil⟩
      | cons b file =>
          rw [takeLine]
          split
          · exact ⟨Nat.succ_le_succ (Nat.zero_le n), List.not_mem_nil⟩
          · rename_i other
            obtain ⟨short, oneLine⟩ := ih file
            refine ⟨Nat.succ_le_succ short, fun newline => ?_⟩
            change 10 ∈ (b :: (takeLine n file).1).dropLast at newline
            cases taken : (takeLine n file).1 with
            | nil =>
                rw [taken] at newline
                exact absurd newline List.not_mem_nil
            | cons c line =>
                rw [taken] at newline oneLine
                rw [List.dropLast_cons_of_ne_nil (List.cons_ne_nil c line)] at newline
                rcases List.mem_cons.mp newline with same | later
                · exact other same.symm
                · exact oneLine later

/-- What the calls of `fgets` take from a file. -/
def chunks (file : List UInt8) : List (List UInt8) := fgetsLines file.length file

theorem fgetsLines_succ {file : List UInt8} (nonempty : file ≠ []) (fuel : Nat) :
    fgetsLines (fuel + 1) file = (takeLine 95 file).1 :: fgetsLines fuel (takeLine 95 file).2 := by
  cases file with
  | nil => exact absurd rfl nonempty
  | cons b file => rfl

theorem takeLine_rest_lt {file : List UInt8} (nonempty : file ≠ []) :
    (takeLine 95 file).2.length < file.length := by
  have lengths := congrArg List.length (takeLine_append 95 file)
  rw [List.length_append] at lengths
  have some_taken : 0 < (takeLine 95 file).1.length := by
    cases file with
    | nil => exact absurd rfl nonempty
    | cons b file =>
        rw [takeLine]
        split
        · exact Nat.zero_lt_succ _
        · exact Nat.zero_lt_succ _
  omega

/-- Calls behind the end of the file take nothing. -/
theorem fgetsLines_enough {file : List UInt8} {fuel more : Nat} (enough : file.length ≤ fuel)
    (enough_more : file.length ≤ more) : fgetsLines fuel file = fgetsLines more file := by
  induction fuel generalizing file more with
  | zero =>
      cases List.length_eq_zero_iff.mp (Nat.le_zero.mp enough)
      cases more with
      | zero => rfl
      | succ more => rfl
  | succ fuel ih =>
      by_cases empty : file = []
      · subst empty
        cases more with
        | zero => rfl
        | succ more => rfl
      · have shorter := takeLine_rest_lt empty
        obtain ⟨n, rfl⟩ : ∃ n, more = n + 1 := ⟨more - 1, by omega⟩
        rw [fgetsLines_succ empty, fgetsLines_succ empty]
        rw [ih (by omega) (show (takeLine 95 file).2.length ≤ n by omega)]

theorem chunks_nil : chunks [] = [] := rfl

/-- The first chunk of a file and the chunks of the rest. -/
theorem chunks_eq {file line rest : List UInt8} (nonempty : file ≠ [])
    (taken : takeLine 95 file = (line, rest)) : chunks file = line :: chunks rest := by
  have shorter := takeLine_rest_lt nonempty
  obtain ⟨n, length⟩ : ∃ n, file.length = n + 1 := ⟨file.length - 1, by omega⟩
  rw [taken] at shorter
  dsimp only at shorter
  unfold chunks
  rw [length, fgetsLines_succ nonempty, taken]
  rw [fgetsLines_enough (show rest.length ≤ n by omega) (Nat.le_refl rest.length)]

/-- A line within the buffer is a chunk. -/
theorem chunks_line {text : List UInt8} (oneLine : 10 ∉ text) (fits : text.length ≤ 94)
    (rest : List UInt8) : chunks (text ++ 10 :: rest) = (text ++ [10]) :: chunks rest :=
  chunks_eq (by simp) (takeLine_line oneLine (by omega))

/-- A line that fills the buffer goes on in the next chunk. -/
theorem chunks_full {text : List UInt8} (oneLine : 10 ∉ text) (full : text.length = 95)
    (rest : List UInt8) : chunks (text ++ rest) = text :: chunks rest := by
  have taken := takeLine_full oneLine rest
  rw [full] at taken
  refine chunks_eq (fun empty => ?_) taken
  rw [List.append_eq_nil_iff] at empty
  rw [empty.1] at full
  cases full

/-- A last line without a newline. -/
theorem chunks_end {text : List UInt8} (oneLine : 10 ∉ text) (fits : text.length ≤ 95)
    (nonempty : text ≠ []) : chunks text = [text] :=
  chunks_eq nonempty (takeLine_end oneLine fits)

/-- A line that `fgets` takes whole. -/
def IsLine (line : List UInt8) : Prop :=
  ∃ text, line = text ++ [10] ∧ 10 ∉ text ∧ line.length ≤ 95

/-- The calls of `fgets` take such lines one by one. -/
theorem chunks_flatten {lines : List (List UInt8)} (whole : ∀ line ∈ lines, IsLine line)
    (rest : List UInt8) : chunks (lines.flatten ++ rest) = lines ++ chunks rest := by
  induction lines with
  | nil => rfl
  | cons line lines ih =>
      obtain ⟨text, rfl, oneLine, fits⟩ := whole line List.mem_cons_self
      rw [List.length_append, List.length_singleton] at fits
      have later := ih fun other member => whole other (List.mem_cons_of_mem _ member)
      rw [List.flatten_cons, List.append_assoc, List.append_assoc, List.singleton_append,
        chunks_line oneLine (by omega), later]
      rfl

/-- Every chunk fits into the buffer and has a newline only at its end. -/
theorem chunk_of_mem {file chunk : List UInt8} (member : chunk ∈ chunks file) :
    chunk.length ≤ 95 ∧ 10 ∉ chunk.dropLast := by
  unfold chunks at member
  generalize file.length = fuel at member
  induction fuel generalizing file with
  | zero => cases member
  | succ fuel ih =>
      by_cases empty : file = []
      · subst empty
        cases member
      · rw [fgetsLines_succ empty] at member
        rcases List.mem_cons.mp member with rfl | later
        · exact takeLine_chunk 95 file
        · exact ih later

end CprFormal.Keyfile.Chunks
