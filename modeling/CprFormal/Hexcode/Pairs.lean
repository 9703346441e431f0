import CprFormal.Hexcode.Model

/-!
# Which texts `cpr_hexload` decodes

On a text that ends behind a complete pair or holds a character that is no digit the
loop stores the pairs at the front.  A single digit before the terminator makes a
pair with it, and the loop goes on behind the text.
-/

namespace CprFormal.Hexcode.Pairs

open CprFormal.Hexcode.Model CprFormal.Library.FlatMemory CprFormal.Library.Hexadecimal
open CprFormal.Strchar.Ctype CprFormal.Strchar.Strlen

/-- Nothing but digits, with one digit left over behind the pairs. -/
def OddDigits (w : List UInt8) : Prop :=
  (∀ c ∈ w, (value c).isSome = true) ∧ w.length % 2 = 1

/-- The complete pairs at the front of `w` are stored, as many as there is room for,
and nothing is read behind the terminator. -/
structure LoadsPairs (out : Memory UInt8) (w : List UInt8) (size : Nat) (result : Hexload) :
    Prop where
  count : result.count = min size (decode w).length
  stored : ∀ i (h : i < (decode w).length), i < result.count → result.out i = (decode w)[i]
  kept : ∀ i, result.count ≤ i → result.out i = out i
  inside : ∀ i ∈ result.reads, i ≤ w.length

section Pass

variable {str : Nat → UInt8} {left i : Nat} {s : Hexload}

theorem hexloadLoop_zero (ends : str i = 0) :
    hexloadLoop str (left + 1) i s = { s with reads := i :: s.reads } := by
  rw [hexloadLoop, if_pos ends]

theorem hexloadLoop_pair {cp1 cp2 : Nat} (nonNul : str i ≠ 0)
    (first : strchr hex (tolower (str i)) = some cp1)
    (second : strchr hex (tolower (str (i + 1))) = some cp2) :
    hexloadLoop str (left + 1) i s =
      hexloadLoop str left (i + 2) ((s.readPair i).store cp1 cp2) := by
  rw [hexloadLoop, if_neg nonNul]
  simp only [first, second]

theorem hexloadLoop_stop (nonNul : str i ≠ 0)
    (missing : strchr hex (tolower (str i)) = none ∨ strchr hex (tolower (str (i + 1))) = none) :
    hexloadLoop str (left + 1) i s = s.readPair i := by
  rw [hexloadLoop, if_neg nonNul]
  rcases missing with first | second
  · simp only [first]
  · cases first : strchr hex (tolower (str i)) with
    | none => rfl
    | some cp1 => simp only [second]

/-- The count does not go down. -/
theorem hexloadLoop_count_le (str : Nat → UInt8) (left i : Nat) (s : Hexload) :
    s.count ≤ (hexloadLoop str left i s).count := by
  induction left generalizing i s with
  | zero => exact Nat.le_refl _
  | succ left ih =>
      unfold hexloadLoop
      split
      · exact Nat.le_refl _
      · split
        · rename_i cp1 cp2 _ _
          exact Nat.le_of_succ_le (ih (i + 2) ((s.readPair i).store cp1 cp2))
        · exact Nat.le_refl _

end Pass

theorem not_oddDigits_nil : ¬ OddDigits [] := fun odd => absurd odd.2 (by decide)

theorem oddDigits_singleton {a : UInt8} : OddDigits [a] ↔ (value a).isSome = true := by
  constructor
  · intro odd
    exact odd.1 a List.mem_cons_self
  · intro digit
    refine ⟨fun c member => ?_, rfl⟩
    rw [List.mem_singleton.mp member]
    exact digit

theorem oddDigits_cons {a b : UInt8} {w : List UInt8} :
    OddDigits (a :: b :: w) ↔
      (value a).isSome = true ∧ (value b).isSome = true ∧ OddDigits w := by
  unfold OddDigits
  rw [List.forall_mem_cons, List.forall_mem_cons, List.length_cons, List.length_cons,
    Nat.add_assoc, Nat.add_mod_right, and_assoc, and_assoc]

section Digits

variable {str : Nat → UInt8} {i : Nat} {a b : UInt8} {w : List UInt8}

theorem first_digit (reads : Reads (fun j => str (i + j)) (a :: w)) :
    str i ≠ 0 ∧ strchr hex (tolower (str i)) = value a := by
  have here : str i = a := reads.char 0 (Nat.zero_lt_succ _)
  have charged : a ≠ 0 := reads.nonNul a List.mem_cons_self
  rw [here]
  exact ⟨charged, strchr_hex a charged⟩

theorem second_digit (reads : Reads (fun j => str (i + j)) (a :: b :: w)) :
    strchr hex (tolower (str (i + 1))) = value b :=
  (first_digit reads.tail).2

/-- The terminator behind a single character is taken for a digit. -/
theorem terminator_digit (reads : Reads (fun j => str (i + j)) [a]) :
    strchr hex (tolower (str (i + 1))) = some 16 := by
  have ends : str (i + 1) = 0 := reads.stop
  rw [ends]
  exact strchr_hex_zero

end Digits

/-! ## The loop -/

/-- What the loop has added to `s` from the text `w` at `i` with room for `left` bytes. -/
structure Adds (left i : Nat) (w : List UInt8) (s result : Hexload) : Prop where
  count : result.count = s.count + min left (decode w).length
  out : result.out = s.out.write s.count ((decode w).take left)
  inside : ∀ j ∈ result.reads, j ∈ s.reads ∨ j ≤ i + w.length

section Loop

variable {str : Nat → UInt8} {left i : Nat} {w : List UInt8} {s : Hexload}

/-- Two characters have been read that are no pair. -/
theorem adds_stop (nonempty : 1 ≤ w.length) (nothing : decode w = []) :
    Adds left i w s (s.readPair i) := by
  refine ⟨by simp [nothing], by rw [nothing, List.take_nil]; rfl, fun j member => ?_⟩
  rcases List.mem_cons.mp member with rfl | member
  · exact .inr (by omega)
  · rcases List.mem_cons.mp member with rfl | old
    · exact .inr (by omega)
    · exact .inl old

/-- A pair has been stored before the rest. -/
theorem Adds.pair {a b : UInt8} {x y : Nat} {result : Hexload}
    (later : Adds left (i + 2) w ((s.readPair i).store x y) result) (hx : value a = some x)
    (hy : value b = some y) : Adds (left + 1) i (a :: b :: w) s result := by
  refine ⟨?_, ?_, fun j member => ?_⟩
  · rw [later.count, decode_cons hx hy, List.length_cons, Hexload.store_count,
      Hexload.readPair_count]
    omega
  · rw [later.out, decode_cons hx hy, List.take_succ_cons, Memory.write, Hexload.store_count,
      Hexload.store_out, Hexload.readPair_count, Hexload.readPair_out,
      pairByte_eq x (value_lt hy)]
  · rw [List.length_cons, List.length_cons]
    rcases later.inside j member with read | behind
    · rcases List.mem_cons.mp read with rfl | read
      · exact .inr (by omega)
      · rcases List.mem_cons.mp read with rfl | old
        · exact .inr (by omega)
        · exact .inl old
    · exact .inr (by omega)

/-- What is stored from an even text or up to a character that is no digit. -/
theorem hexloadLoop_adds (s : Hexload) (reads : Reads (fun j => str (i + j)) w)
    (whole : ¬ (OddDigits w ∧ w.length < 2 * left)) :
    Adds left i w s (hexloadLoop str left i s) := by
  induction left generalizing i w s with
  | zero => exact ⟨by simp [hexloadLoop], by simp [hexloadLoop, Memory.write], fun j => .inl⟩
  | succ left ih =>
      cases w with
      | nil =>
          have ends : str i = 0 := reads.stop
          rw [hexloadLoop_zero ends]
          refine ⟨rfl, rfl, fun j member => ?_⟩
          rcases List.mem_cons.mp member with rfl | old
          · exact .inr (Nat.le_refl _)
          · exact .inl old
      | cons a w =>
          obtain ⟨nonNul, first⟩ := first_digit reads
          cases w with
          | nil =>
              have none_here : value a = none := by
                cases read : value a with
                | none => rfl
                | some x =>
                    have digit : (value a).isSome = true := read ▸ rfl
                    exact absurd ⟨oddDigits_singleton.mpr digit, by simp; omega⟩ whole
              rw [hexloadLoop_stop nonNul (.inl (first.trans none_here))]
              exact adds_stop (Nat.le_refl 1) rfl
          | cons b w =>
              have second := second_digit reads
              by_cases complete : (value a).isSome = true ∧ (value b).isSome = true
              · obtain ⟨x, hx⟩ := Option.isSome_iff_exists.mp complete.1
                obtain ⟨y, hy⟩ := Option.isSome_iff_exists.mp complete.2
                have short : ¬ (OddDigits w ∧ w.length < 2 * left) := by
                  rintro ⟨odd, room⟩
                  refine whole ⟨oddDigits_cons.mpr ⟨complete.1, complete.2, odd⟩, ?_⟩
                  rw [List.length_cons, List.length_cons]
                  omega
                rw [hexloadLoop_pair nonNul (first.trans hx) (second.trans hy)]
                exact (ih ((s.readPair i).store x y) reads.tail.tail short).pair hx hy
              · have incomplete : value a = none ∨ value b = none := by
                  rw [not_and_or, Option.not_isSome_iff_eq_none,
                    Option.not_isSome_iff_eq_none] at complete
                  exact complete
                rw [hexloadLoop_stop nonNul (incomplete.imp first.trans second.trans)]
                exact adds_stop (by simp) (decode_incomplete incomplete w)

/-- The digit before the terminator is counted with it. -/
theorem lt_hexloadLoop_count (s : Hexload) (reads : Reads (fun j => str (i + j)) w)
    (odd : OddDigits w) (room : w.length < 2 * left) :
    s.count + (decode w).length < (hexloadLoop str left i s).count := by
  induction left generalizing i w s with
  | zero => exact absurd room (Nat.not_lt_zero _)
  | succ left ih =>
      cases w with
      | nil => exact absurd odd not_oddDigits_nil
      | cons a w =>
          obtain ⟨nonNul, first⟩ := first_digit reads
          obtain ⟨x, hx⟩ := Option.isSome_iff_exists.mp (odd.1 a List.mem_cons_self)
          cases w with
          | nil =>
              rw [hexloadLoop_pair nonNul (first.trans hx) (terminator_digit reads)]
              exact hexloadLoop_count_le str left (i + 2) ((s.readPair i).store x 16)
          | cons b w =>
              obtain ⟨-, digit, later⟩ := oddDigits_cons.mp odd
              obtain ⟨y, hy⟩ := Option.isSome_iff_exists.mp digit
              rw [List.length_cons, List.length_cons] at room
              have more : s.count + 1 + (decode w).length <
                  (hexloadLoop str left (i + 2) ((s.readPair i).store x y)).count :=
                ih ((s.readPair i).store x y) reads.tail.tail later (by omega)
              rw [hexloadLoop_pair nonNul (first.trans hx) ((second_digit reads).trans hy),
                decode_cons hx hy, List.length_cons]
              omega

end Loop

theorem cprHexload_eq (out : Memory UInt8) (str : Nat → UInt8) (size : Nat) :
    cprHexload out str size = hexloadLoop str size 0 ⟨out, 0, []⟩ := by
  unfold cprHexload
  split
  · rename_i zero
    rw [zero]
    rfl
  · rfl

theorem loadsPairs {str : Nat → UInt8} {w : List UInt8} {size : Nat} (out : Memory UInt8)
    (reads : Reads str w) (whole : ¬ (OddDigits w ∧ w.length < 2 * size)) :
    LoadsPairs out w size (cprHexload out str size) := by
  obtain ⟨count, stored, inside⟩ := hexloadLoop_adds ⟨out, 0, []⟩ (reads_zero_add.mpr reads) whole
  rw [← cprHexload_eq] at count stored inside
  rw [Nat.zero_add] at count
  have length : ((decode w).take size).length = min size (decode w).length := List.length_take
  refine ⟨count, fun i h below => ?_, fun i beyond => ?_, fun j member => ?_⟩
  · have inside_taken : i < ((decode w).take size).length := by omega
    have here := out.write_inside 0 _ inside_taken
    rw [Nat.zero_add] at here
    rw [stored, here, List.getElem_take]
  · rw [stored]
    refine out.write_outside _ (.inr ?_)
    change 0 + _ ≤ i
    omega
  · rcases inside j member with none_before | here
    · cases none_before
    · omega

/-- Exactly the pairs at the front are decoded, except from an odd number of digits that
leaves room for one more byte. -/
theorem cprHexload_pairs_iff {str : Nat → UInt8} {w : List UInt8} (out : Memory UInt8)
    (size : Nat) (reads : Reads str w) :
    LoadsPairs out w size (cprHexload out str size) ↔
      ¬ (OddDigits w ∧ w.length < 2 * size) := by
  constructor
  · rintro loads ⟨odd, room⟩
    have more := lt_hexloadLoop_count ⟨out, 0, []⟩ (reads_zero_add.mpr reads) odd room
    rw [← cprHexload_eq, loads.count] at more
    omega
  · exact loadsPairs out reads

/-- Room for the two pairs of `A1xyz`, where the decoding stops at the `x`. -/
theorem cprHexload_pairs_mixed :
    LoadsPairs (fun _ => 0) [65, 49, 120, 121, 122] 2
        (cprHexload (fun _ => 0) (CString.char ⟨[65, 49, 120, 121, 122], by simp⟩) 2) ↔
      ¬ (OddDigits [65, 49, 120, 121, 122] ∧
        ([65, 49, 120, 121, 122] : List UInt8).length < 2 * 2) :=
  cprHexload_pairs_iff (fun _ => 0) 2 (CString.reads ⟨[65, 49, 120, 121, 122], by simp⟩)

/-- From `a` alone a byte is stored and the character behind the terminator is read. -/
theorem cprHexload_single_digit :
    let result := cprHexload (fun _ => 0) (CString.char ⟨[97], by simp⟩) 2
    result.count = 1 ∧ 2 ∈ result.reads ∧ ¬ LoadsPairs (fun _ => 0) [97] 2 result := by
  refine ⟨by decide +kernel, by decide +kernel, fun loads => ?_⟩
  have nothing := loads.count
  revert nothing
  decide +kernel

end CprFormal.Hexcode.Pairs
