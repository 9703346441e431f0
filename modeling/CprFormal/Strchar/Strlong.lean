import CprFormal.Library.Decimal
import CprFormal.Strchar.Strlen

/-!
# `cpr_reverse` and `cpr_strlong`

The digits of a number are stored from the last one on and then reversed in place.
The loop that stores them stops at the end of the buffer; a number whose digits end
exactly there is taken for one that does not fit.  The least number has no opposite,
and nothing is stored behind its sign.
-/

namespace CprFormal.Strchar.Strlong

open CprFormal.Library.Decimal CprFormal.Library.FlatMemory CprFormal.Strchar.Strlen

/-- `*p1 ^= *p2; *p2 ^= *p1; *p1 ^= *p2;` -/
def xorSwap (mem : Memory UInt8) (p1 p2 : Nat) : Memory UInt8 :=
  let mem := mem.set p1 (mem p1 ^^^ mem p2)
  let mem := mem.set p2 (mem p2 ^^^ mem p1)
  mem.set p1 (mem p1 ^^^ mem p2)

/-- `for (...; p2 > p1; ++p1, --p2)` -/
def reverseLoop : Nat → Nat → Nat → Memory UInt8 → Memory UInt8
  | 0, _, _, mem => mem
  | fuel + 1, p1, p2, mem =>
      if p1 < p2 then reverseLoop fuel (p1 + 1) (p2 - 1) (xorSwap mem p1 p2) else mem

/-- `cpr_reverse(&mem[str])`, whose terminator comes within `limit` characters. -/
def cprReverse (mem : Memory UInt8) (str limit : Nat) : Memory UInt8 :=
  if mem str = 0 then mem
  else
    let len := cprStrlen (fun j => mem (str + j)) limit
    reverseLoop len str (str + len - 1) mem

theorem xor_second (a b : UInt8) : b ^^^ (a ^^^ b) = a := by
  rw [UInt8.xor_comm a, ← UInt8.xor_assoc, UInt8.xor_self, UInt8.zero_xor]

theorem xor_third (a b : UInt8) : (a ^^^ b) ^^^ a = b := by
  rw [UInt8.xor_comm a, UInt8.xor_assoc, UInt8.xor_self, UInt8.xor_zero]

theorem xorSwap_apply (mem : Memory UInt8) {p1 p2 : Nat} (apart : p1 ≠ p2) (i : Nat) :
    xorSwap mem p1 p2 i = if i = p1 then mem p2 else if i = p2 then mem p1 else mem i := by
  by_cases first : i = p1
  · subst first
    simp only [xorSwap, Memory.set, apart, apart.symm, if_true, if_false, xor_second, xor_third]
  · by_cases second : i = p2
    · subst second
      simp only [xorSwap, Memory.set, first, if_true, if_false, xor_second]
    · simp [xorSwap, Memory.set, first, second]

/-- The range between the two pointers is mirrored. -/
theorem reverseLoop_apply {fuel p1 p2 : Nat} (mem : Memory UInt8) (enough : p2 ≤ p1 + 2 * fuel)
    (i : Nat) :
    reverseLoop fuel p1 p2 mem i = if p1 ≤ i ∧ i ≤ p2 then mem (p1 + p2 - i) else mem i := by
  induction fuel generalizing p1 p2 mem with
  | zero =>
      unfold reverseLoop
      split
      · rw [show p1 + p2 - i = i by omega]
      · rfl
  | succ fuel ih =>
      unfold reverseLoop
      by_cases more : p1 < p2
      · rw [if_pos more, ih (xorSwap mem p1 p2) (by omega)]
        have swapped := xorSwap_apply mem (Nat.ne_of_lt more)
        by_cases inside : p1 ≤ i ∧ i ≤ p2
        · rw [if_pos inside]
          by_cases inner : p1 + 1 ≤ i ∧ i ≤ p2 - 1
          · rw [if_pos inner, swapped, if_neg (by omega), if_neg (by omega),
              show p1 + 1 + (p2 - 1) = p1 + p2 by omega]
          · rw [if_neg inner, swapped]
            by_cases first : i = p1
            · rw [if_pos first, show p1 + p2 - i = p2 by omega]
            · rw [if_neg first, if_pos (by omega), show p1 + p2 - i = p1 by omega]
        · rw [if_neg inside, if_neg (by omega), swapped, if_neg (by omega), if_neg (by omega)]
      · rw [if_neg more]
        split
        · rw [show p1 + p2 - i = i by omega]
        · rfl

theorem cprReverse_spec {mem : Memory UInt8} {str limit : Nat} {w : List UInt8}
    (reads : Reads (fun j => mem (str + j)) w) (fits : w.length ≤ limit) :
    Reads (fun j => cprReverse mem str limit (str + j)) w.reverse ∧
      ∀ i, i < str ∨ str + w.length ≤ i → cprReverse mem str limit i = mem i := by
  unfold cprReverse
  cases w with
  | nil =>
      have ends : mem str = 0 := reads.stop
      rw [if_pos ends]
      exact ⟨reads, fun _ _ => rfl⟩
  | cons a w =>
      have nonempty : ¬ mem str = 0 := reads.ne_zero (Nat.zero_lt_succ _)
      have length : cprStrlen (fun j => mem (str + j)) limit = (a :: w).length := by
        rw [reads.strlen]
        omega
      rw [if_neg nonempty, length]
      have mirrored := @reverseLoop_apply (a :: w).length str (str + (a :: w).length - 1) mem
        (by omega)
      have positive : 0 < (a :: w).length := Nat.zero_lt_succ _
      refine ⟨⟨fun i h => ?_, fun b member => reads.nonNul b (List.mem_reverse.mp member), ?_⟩,
        fun i outside => ?_⟩
      · rw [List.length_reverse] at h
        rw [mirrored, if_pos (by omega), List.getElem_reverse]
        have here := reads.char ((a :: w).length - 1 - i) (by omega)
        rw [← here]
        exact congrArg mem (by omega)
      · rw [List.length_reverse, mirrored, if_neg (by omega)]
        exact reads.stop
      · rw [mirrored, if_neg (by omega)]

/-! ## `cpr_strlong` -/

/-- `while (v > 0 && r < e)`, with room for `room` characters before `e`. -/
def digitLoop : Nat → Int64 → Nat → Memory UInt8 → Memory UInt8 × Nat
  | 0, _, r, mem => (mem, r)
  | room + 1, v, r, mem =>
      if 0 < v then
        digitLoop room (v / 10) (r + 1) (mem.set r (UInt8.ofInt ((v % 10).toInt + 48)))
      else (mem, r)

/-- The digits of `v` from `p` on, with the end of the buffer at `s - 1`; the result is a
pointer to the start of the buffer, or `NULL`. -/
def storeDigits (v : Int64) (p s : Nat) (mem : Memory UInt8) : Memory UInt8 × Option Nat :=
  let e := s - 1
  let (mem, r) := digitLoop (e - p) v p mem
  if r = e then (mem, none) else (cprReverse (mem.set r 0) p s, some 0)

/-- `cpr_strlong(v, p, s)` with `p` at the start of the memory. -/
def cprStrlong (v : Int64) (mem : Memory UInt8) (s : Nat) : Memory UInt8 × Option Nat :=
  if s < 2 then (mem, none)
  else if v = 0 then ((mem.set 0 48).set 1 0, some 0)
  else if v < 0 then storeDigits (-v) 1 s (mem.set 0 45)
  else storeDigits v 0 s mem

theorem ofInt_remainder (n : Nat) : UInt8.ofInt ((n % 10 : Nat) + 48) = character (n % 10) := by
  have small := Nat.mod_lt n (show 0 < 10 by decide)
  generalize n % 10 = d at small
  revert d
  decide +kernel

/-- The digits are stored as far as there is room for them. -/
theorem digitLoop_spec {v : Int64} {n : Nat} (value : v.toInt = n) (room r : Nat)
    (mem : Memory UInt8) :
    digitLoop room v r mem =
      (mem.write r ((digits n).take room), r + min room (digits n).length) := by
  induction room generalizing v n r mem with
  | zero => simp [digitLoop, Memory.write]
  | succ room ih =>
      unfold digitLoop
      have zero : (0 : Int64).toInt = 0 := by decide
      have ten : (10 : Int64).toInt = (10 : Nat) := by decide
      have more : 0 < v ↔ 0 < n := by
        rw [Int64.lt_iff_toInt_lt, zero, value]
        omega
      by_cases positive : 0 < n
      · have quotient : (v / 10).toInt = (n / 10 : Nat) := by
          rw [Int64.toInt_div_of_ne_right v 10 (by decide), value, ten, ← Int.ofNat_tdiv]
        have remainder : (v % 10).toInt = (n % 10 : Nat) := by
          rw [Int64.toInt_mod, value, ten, ← Int.ofNat_tmod]
        rw [if_pos (more.mpr positive), ih quotient, remainder, ofInt_remainder,
          digits_step positive, List.take_succ_cons, List.length_cons, Memory.write]
        refine Prod.ext rfl ?_
        dsimp only
        omega
      · rw [if_neg (fun up => positive (more.mp up)), show n = 0 by omega, digits_zero]
        rfl

/-- Digits that reach the end of the buffer are given up. -/
theorem storeDigits_full {v : Int64} {n p s : Nat} (value : v.toInt = n) (start : p < s)
    (full : s ≤ p + (digits n).length + 1) (mem : Memory UInt8) :
    (storeDigits v p s mem).2 = none := by
  have here : p + min (s - 1 - p) (digits n).length = s - 1 := by omega
  unfold storeDigits
  simp only [digitLoop_spec value]
  rw [if_pos here]

theorem storeDigits_fits {v : Int64} {n p s : Nat} (value : v.toInt = n)
    (fits : p + (digits n).length + 1 < s) (mem : Memory UInt8) :
    storeDigits v p s mem =
      (cprReverse ((mem.write p (digits n)).set (p + (digits n).length) 0) p s, some 0) := by
  have whole : min (s - 1 - p) (digits n).length = (digits n).length := by omega
  unfold storeDigits
  simp only [digitLoop_spec value]
  rw [List.take_of_length_le (show (digits n).length ≤ s - 1 - p by omega), whole,
    if_neg (by omega)]

/-- What is stored is in order, and nothing before it has changed. -/
theorem storeDigits_reads {v : Int64} {n p s : Nat} (value : v.toInt = n)
    (fits : p + (digits n).length + 1 < s) (mem : Memory UInt8) :
    Reads (fun j => (storeDigits v p s mem).1 (p + j)) (digits n).reverse ∧
      ∀ i, i < p → (storeDigits v p s mem).1 i = mem i := by
  rw [storeDigits_fits value fits]
  have stored : Reads (fun j => ((mem.write p (digits n)).set (p + (digits n).length) 0) (p + j))
      (digits n) := by
    refine ⟨fun i h => ?_, fun c member zero => ?_, Memory.set_same _ _ _⟩
    · exact (Memory.set_other _ _ (by omega)).trans (mem.write_inside p _ h)
    · have digit := digit_of_mem_digits member
      rw [zero] at digit
      exact absurd digit.1 (by decide)
  obtain ⟨reversed, kept⟩ := cprReverse_spec stored (show (digits n).length ≤ s by omega)
  refine ⟨reversed, fun i before => ?_⟩
  exact (kept i (.inl before)).trans
    ((Memory.set_other _ _ (by omega)).trans (mem.write_outside _ (.inl before)))

theorem cprStrlong_short (v : Int64) (mem : Memory UInt8) {s : Nat} (short : s < 2) :
    cprStrlong v mem s = (mem, none) := if_pos short

theorem cprStrlong_zero (mem : Memory UInt8) {s : Nat} (room : 2 ≤ s) :
    (cprStrlong 0 mem s).2 = some 0 ∧ Reads (cprStrlong 0 mem s).1 (decimal 0) := by
  have here : cprStrlong 0 mem s = ((mem.set 0 48).set 1 0, some 0) := by
    unfold cprStrlong
    rw [if_neg (by omega), if_pos rfl]
  rw [here]
  refine ⟨rfl, fun i h => ?_, fun b member => ?_, rfl⟩
  · have first : i = 0 := Nat.lt_one_iff.mp h
    subst first
    rfl
  · rw [List.mem_singleton.mp member]
    decide

theorem cprStrlong_pos {v : Int64} (positive : 0 < v) (mem : Memory UInt8) {s : Nat}
    (room : 2 ≤ s) : cprStrlong v mem s = storeDigits v 0 s mem := by
  have nonzero : v ≠ 0 := fun zero => absurd (zero ▸ positive) (by decide)
  have plus : ¬ v < 0 := Int64.lt_asymm positive
  unfold cprStrlong
  rw [if_neg (by omega), if_neg nonzero, if_neg plus]

theorem cprStrlong_neg {v : Int64} (negative : v < 0) (mem : Memory UInt8) {s : Nat}
    (room : 2 ≤ s) : cprStrlong v mem s = storeDigits (-v) 1 s (mem.set 0 45) := by
  have nonzero : v ≠ 0 := fun zero => absurd (zero ▸ negative) (by decide)
  unfold cprStrlong
  rw [if_neg (by omega), if_neg nonzero, if_pos negative]

/-- The least number is its own opposite, and no digit of it is stored. -/
theorem cprStrlong_min (mem : Memory UInt8) {s : Nat} (room : 2 ≤ s) :
    ((cprStrlong Int64.minValue mem s).2 = none ↔ s = 2) ∧
      (3 ≤ s → (cprStrlong Int64.minValue mem s).2 = some 0 ∧
        Reads (cprStrlong Int64.minValue mem s).1 [45]) := by
  have loop (room : Nat) (r : Nat) (mem : Memory UInt8) :
      digitLoop room Int64.minValue r mem = (mem, r) := by
    cases room with
    | zero => rfl
    | succ room =>
        unfold digitLoop
        exact if_neg (by decide)
  have opposite : -Int64.minValue = Int64.minValue := by decide
  rw [cprStrlong_neg (by decide) mem room, opposite]
  unfold storeDigits
  simp only [loop]
  by_cases two : s = 2
  · rw [if_pos (by omega)]
    exact ⟨⟨fun _ => two, fun _ => rfl⟩, fun three => by omega⟩
  · rw [if_neg (by omega)]
    refine ⟨⟨nofun, fun same => absurd same two⟩, fun _ => ⟨rfl, ?_⟩⟩
    have ends : ((mem.set 0 45).set 1 0) 1 = 0 := Memory.set_same _ _ _
    have kept : cprReverse ((mem.set 0 45).set 1 0) 1 s = (mem.set 0 45).set 1 0 := if_pos ends
    rw [kept]
    refine ⟨fun i h => ?_, fun b member => ?_, ends⟩
    · have first : i = 0 := Nat.lt_one_iff.mp h
      subst first
      rfl
    · rw [List.mem_singleton.mp member]
      decide

theorem toInt_neg_of_ne_min {v : Int64} (regular : v ≠ Int64.minValue) :
    (-v).toInt = -v.toInt := by
  have low := v.le_toInt
  have high := v.toInt_lt
  have apart : v.toInt ≠ -2 ^ 63 := fun least =>
    regular (Int64.toInt_inj.mp (least.trans Int64.toInt_minValue.symm))
  rw [Int64.toInt_neg]
  exact Int.bmod_eq_of_le (by omega) (by omega)

/-- Every number but the least one is written in full or not at all, and it needs one
byte more than its text and the terminator unless it is zero. -/
theorem cprStrlong_spec {v : Int64} (regular : v ≠ Int64.minValue) (mem : Memory UInt8)
    (s : Nat) :
    ((cprStrlong v mem s).2 = none ↔ s < 2 ∨ v ≠ 0 ∧ s < (decimal v.toInt).length + 2) ∧
      ∀ out, (cprStrlong v mem s).2 = some out →
        out = 0 ∧ Reads (cprStrlong v mem s).1 (decimal v.toInt) ∧
          (decimal v.toInt).length < s := by
  by_cases short : s < 2
  · rw [cprStrlong_short v mem short]
    exact ⟨⟨fun _ => .inl short, fun _ => rfl⟩, nofun⟩
  have room : 2 ≤ s := Nat.le_of_not_lt short
  by_cases zero : v = 0
  · subst zero
    obtain ⟨start, reads⟩ := cprStrlong_zero mem room
    rw [start]
    refine ⟨⟨nofun, fun either => ?_⟩, fun out same => ⟨?_, reads, ?_⟩⟩
    · rcases either with small | ⟨nonzero, _⟩
      · exact absurd small short
      · exact absurd rfl nonzero
    · exact (Option.some.inj same).symm
    · exact room
  rcases Int64.lt_or_lt_of_ne zero with negative | positive
  · have below : v.toInt < 0 := Int64.lt_iff_toInt_lt.mp negative
    obtain ⟨n, value⟩ := Int.eq_ofNat_of_zero_le (show 0 ≤ -v.toInt by omega)
    have opposite : (-v).toInt = n := (toInt_neg_of_ne_min regular).trans value
    rw [cprStrlong_neg negative mem room, decimal_of_neg value (by omega), List.length_cons,
      List.length_reverse]
    by_cases fits : 1 + (digits n).length + 1 < s
    · obtain ⟨reads, kept⟩ := storeDigits_reads opposite fits (mem.set 0 45)
      have start : (storeDigits (-v) 1 s (mem.set 0 45)).2 = some 0 := by
        rw [storeDigits_fits opposite fits]
      rw [start]
      refine ⟨⟨nofun, fun either => by omega⟩, fun out same => ⟨?_, ?_, by omega⟩⟩
      · exact (Option.some.inj same).symm
      · exact reads_zero_add.mp (Reads.cons (kept 0 (by decide)) (by decide) reads)
    · rw [storeDigits_full opposite (by omega) (by omega)]
      exact ⟨⟨fun _ => .inr ⟨zero, by omega⟩, fun _ => rfl⟩, nofun⟩
  · have above : 0 < v.toInt := Int64.lt_iff_toInt_lt.mp positive
    obtain ⟨n, value⟩ := Int.eq_ofNat_of_zero_le (show 0 ≤ v.toInt by omega)
    rw [cprStrlong_pos positive mem room, decimal_of_pos value (by omega), List.length_reverse]
    by_cases fits : 0 + (digits n).length + 1 < s
    · obtain ⟨reads, -⟩ := storeDigits_reads value fits mem
      have start : (storeDigits v 0 s mem).2 = some 0 := by
        rw [storeDigits_fits value fits]
      rw [start]
      refine ⟨⟨nofun, fun either => by omega⟩, fun out same => ⟨?_, ?_, by omega⟩⟩
      · exact (Option.some.inj same).symm
      · exact reads_zero_add.mp reads
    · rw [storeDigits_full value (by omega) (by omega)]
      exact ⟨⟨fun _ => .inr ⟨zero, by omega⟩, fun _ => rfl⟩, nofun⟩

/-- What is returned is the canonical text of the number, except for the least number with
room for its sign and two bytes more. -/
theorem cprStrlong_sound_iff (v : Int64) (mem : Memory UInt8) (s : Nat) :
    (∀ out, (cprStrlong v mem s).2 = some out →
      ∃ w, Reads (fun j => (cprStrlong v mem s).1 (out + j)) w ∧ w.length < s ∧
        Canonical w ∧ readInt w = v.toInt) ↔
      ¬ (v = Int64.minValue ∧ 3 ≤ s) := by
  constructor
  · rintro sound ⟨rfl, room⟩
    obtain ⟨start, sign⟩ := (cprStrlong_min mem (Nat.le_of_succ_le room)).2 room
    obtain ⟨w, reads, -, text⟩ := sound 0 start
    have whole : w = [45] := (reads_zero_add.mp reads).unique sign
    have value := text.2
    rw [whole] at value
    revert value
    decide +kernel
  · intro regular out returned
    by_cases least : v = Int64.minValue
    · subst least
      by_cases room : 2 ≤ s
      · have two : s = 2 := Nat.le_antisymm
          (Nat.le_of_not_lt fun three => regular ⟨rfl, three⟩) room
        rw [(cprStrlong_min mem room).1.mpr two] at returned
        cases returned
      · rw [cprStrlong_short _ mem (Nat.lt_of_not_le room)] at returned
        cases returned
    · obtain ⟨rfl, reads, fits⟩ := (cprStrlong_spec least mem s).2 out returned
      exact ⟨_, reads_zero_add.mpr reads, fits, canonical_iff.mpr rfl⟩

theorem decimal_length_min : (decimal Int64.minValue.toInt).length = 20 := by
  decide +kernel

/-- The result is `NULL` just when the text and its terminator do not fit, except for a
nonzero number whose text fits exactly and for the least number in a buffer between. -/
theorem cprStrlong_null_iff (v : Int64) (mem : Memory UInt8) (s : Nat) :
    ((cprStrlong v mem s).2 = none ↔ s < (decimal v.toInt).length + 1) ↔
      v = 0 ∨ (v ≠ Int64.minValue ∧ s ≠ (decimal v.toInt).length + 1) ∨
        (v = Int64.minValue ∧ ¬ (3 ≤ s ∧ s ≤ 20)) := by
  by_cases least : v = Int64.minValue
  · subst least
    have nonzero : Int64.minValue ≠ 0 := by decide
    have null : (cprStrlong Int64.minValue mem s).2 = none ↔ s ≤ 2 := by
      by_cases room : 2 ≤ s
      · rw [(cprStrlong_min mem room).1]
        omega
      · rw [cprStrlong_short _ mem (Nat.lt_of_not_le room)]
        exact ⟨fun _ => by omega, fun _ => rfl⟩
    rw [null, decimal_length_min]
    simp only [nonzero, ne_eq, not_true_eq_false, false_and, true_and, false_or]
    omega
  · rw [(cprStrlong_spec least mem s).1]
    by_cases zero : v = 0
    · subst zero
      have one : (decimal (0 : Int64).toInt).length = 1 := by decide
      rw [one]
      simp
    · have positive : 0 < (decimal v.toInt).length := by
        refine List.length_pos_iff.mpr fun none => ?_
        obtain ⟨text, -⟩ := canonical_iff.mpr (show [] = decimal v.toInt from none.symm)
        rcases text with plain | ⟨_, sign, _⟩
        · exact plain.nonempty rfl
        · cases sign
      simp only [zero, least, ne_eq, not_false_eq_true, true_and, false_and, or_false, false_or]
      omega

/-- The least number is written as its sign alone. -/
theorem cprStrlong_least :
    (cprStrlong Int64.minValue (fun _ => 0) 32).2 = some 0 ∧
      ¬ ∃ w, Reads (cprStrlong Int64.minValue (fun _ => 0) 32).1 w ∧ w.length < 32 ∧
        Canonical w ∧ readInt w = Int64.minValue.toInt := by
  obtain ⟨start, sign⟩ := (cprStrlong_min (fun _ => 0) (by decide : 2 ≤ 32)).2 (by decide)
  refine ⟨start, ?_⟩
  rintro ⟨w, reads, -, -, value⟩
  rw [reads.unique sign] at value
  revert value
  decide +kernel

/-- The character of `7` and its terminator fit into two bytes, but are refused. -/
theorem cprStrlong_exact_fit :
    ¬ ((cprStrlong 7 (fun _ => 0) 2).2 = none ↔
      2 < (decimal (7 : Int64).toInt).length + 1) := by
  decide +kernel

end CprFormal.Strchar.Strlong
