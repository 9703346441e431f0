import Mathlib.Data.List.GetD
import Mathlib.Order.Basic
import CprFormal.Library.FlatMemory
import CprFormal.Library.Lists

/-!
# C strings and `cpr_strlen`

A pointer to characters is the function that reads at an offset from it.
-/

namespace CprFormal.Strchar.Strlen

open CprFormal.Library.FlatMemory CprFormal.Library.Lists

/-- The text of a NUL-terminated string. -/
@[ext]
structure CString where
  bytes : List UInt8
  nonNul : ∀ b ∈ bytes, b ≠ 0
  deriving DecidableEq

namespace CString

def length (w : CString) : Nat := w.bytes.length

/-- Reading at an offset; the terminator follows the text. -/
def char (w : CString) (i : Nat) : UInt8 := w.bytes.getD i 0

def empty : CString := ⟨[], by simp⟩

theorem char_eq_zero_iff (w : CString) (i : Nat) : w.char i = 0 ↔ w.length ≤ i := by
  unfold char length
  constructor
  · intro zero
    by_contra inside
    have here : i < w.bytes.length := Nat.lt_of_not_le inside
    rw [List.getD_eq_getElem _ _ here] at zero
    exact w.nonNul _ (List.getElem_mem here) zero
  · intro beyond
    exact List.getD_eq_default _ _ beyond

end CString

/-- `while (*s && (++count < max)) ++s;` with `s` advanced `count` times. -/
def strlenLoop (s : Nat → UInt8) (limit : Nat) : Nat → Nat → Nat
  | 0, count => count
  | fuel + 1, count =>
      if s count = 0 then count
      else if count + 1 < limit then strlenLoop s limit fuel (count + 1)
      else count + 1

/-- `cpr_strlen`: the limit is tested after a character has been counted. -/
def cprStrlen (s : Nat → UInt8) (limit : Nat) : Nat :=
  strlenLoop s limit (limit + 1) 0

/-- Counting from `count` on: what is counted is no NUL, and the count ends at a
NUL or at the limit. -/
theorem strlenLoop_spec (s : Nat → UInt8) (limit : Nat) :
    ∀ fuel count, limit ≤ count + fuel → count < max 1 limit → 0 < fuel →
      (count ≤ strlenLoop s limit fuel count ∧
        strlenLoop s limit fuel count ≤ max 1 limit) ∧
      (∀ i, count ≤ i → i < strlenLoop s limit fuel count → s i ≠ 0) ∧
      (strlenLoop s limit fuel count < max 1 limit →
        s (strlenLoop s limit fuel count) = 0) := by
  intro fuel
  induction fuel with
  | zero =>
      intro count _ _ positive
      cases positive
  | succ fuel ih =>
      intro count enough below _
      unfold strlenLoop
      split
      · rename_i here
        exact ⟨⟨Nat.le_refl _, Nat.le_of_lt below⟩, fun i low high => by omega, fun _ => here⟩
      · rename_i here
        split
        · rename_i more
          obtain ⟨⟨low, high⟩, inside, stop⟩ := ih (count + 1) (by omega) (by omega) (by omega)
          refine ⟨⟨by omega, high⟩, fun i start before => ?_, stop⟩
          by_cases first : i = count
          · rw [first]
            exact here
          · exact inside i (by omega) before
        · rename_i last
          refine ⟨⟨by omega, by omega⟩, fun i start before => ?_, fun short => by omega⟩
          rw [show i = count by omega]
          exact here

theorem cprStrlen_le (s : Nat → UInt8) (limit : Nat) : cprStrlen s limit ≤ max 1 limit :=
  (strlenLoop_spec s limit (limit + 1) 0 (by omega) (by omega) (by omega)).1.2

theorem cprStrlen_ne_zero (s : Nat → UInt8) (limit : Nat) {i : Nat}
    (inside : i < cprStrlen s limit) : s i ≠ 0 :=
  (strlenLoop_spec s limit (limit + 1) 0 (by omega) (by omega) (by omega)).2.1 i
    (Nat.zero_le i) inside

theorem cprStrlen_stop (s : Nat → UInt8) (limit : Nat)
    (short : cprStrlen s limit < max 1 limit) : s (cprStrlen s limit) = 0 :=
  (strlenLoop_spec s limit (limit + 1) 0 (by omega) (by omega) (by omega)).2.2 short

theorem cprStrlen_eq_zero_iff (s : Nat → UInt8) (limit : Nat) :
    cprStrlen s limit = 0 ↔ s 0 = 0 := by
  constructor
  · intro none
    have stop := cprStrlen_stop s limit (by omega)
    rwa [none] at stop
  · intro zero
    by_contra some_counted
    exact cprStrlen_ne_zero s limit (Nat.pos_of_ne_zero some_counted) zero

/-- A text that is known up to its first NUL. -/
theorem cprStrlen_eq {s : Nat → UInt8} {len : Nat} (text : ∀ i, i < len → s i ≠ 0)
    (stop : s len = 0) (limit : Nat) : cprStrlen s limit = min len (max 1 limit) := by
  have bound := cprStrlen_le s limit
  rcases Nat.lt_trichotomy (cprStrlen s limit) (min len (max 1 limit)) with short | same | long
  · exact absurd (cprStrlen_stop s limit (by omega)) (text _ (by omega))
  · exact same
  · have inside : len < cprStrlen s limit := by omega
    exact absurd stop (cprStrlen_ne_zero s limit inside)

/-- On a whole string the count is the length or the limit, but a limit of zero
counts like a limit of one. -/
theorem cprStrlen_char (w : CString) (limit : Nat) :
    cprStrlen w.char limit = min w.length (max 1 limit) := by
  apply cprStrlen_eq
  · intro i inside zero
    have beyond := (w.char_eq_zero_iff i).mp zero
    omega
  · exact (w.char_eq_zero_iff _).mpr (Nat.le_refl _)

theorem cprStrlen_length (w : CString) (limit : Nat) : cprStrlen w.char limit ≤ w.length := by
  rw [cprStrlen_char]
  exact Nat.min_le_left _ _

/-! ## Texts in memory -/

/-- Reading finds the text and then its terminator. -/
structure Reads (s : Nat → UInt8) (w : List UInt8) : Prop where
  char : ∀ i (h : i < w.length), s i = w[i]
  nonNul : ∀ b ∈ w, b ≠ 0
  stop : s w.length = 0

theorem Reads.ne_zero {s : Nat → UInt8} {w : List UInt8} (reads : Reads s w) {i : Nat}
    (inside : i < w.length) : s i ≠ 0 := by
  rw [reads.char i inside]
  exact reads.nonNul _ (List.getElem_mem inside)

theorem Reads.strlen {s : Nat → UInt8} {w : List UInt8} (reads : Reads s w) (limit : Nat) :
    cprStrlen s limit = min w.length (max 1 limit) :=
  cprStrlen_eq (fun _ inside => reads.ne_zero inside) reads.stop limit

/-- A memory holds one text. -/
theorem Reads.unique {s : Nat → UInt8} {v w : List UInt8} (first : Reads s v)
    (second : Reads s w) : v = w := by
  have lengths : v.length = w.length := by
    rcases Nat.lt_trichotomy v.length w.length with short | same | long
    · exact absurd first.stop (second.ne_zero short)
    · exact same
    · exact absurd second.stop (first.ne_zero long)
  exact List.ext_getElem lengths fun i h h' => (first.char i h).symm.trans (second.char i h')

/-- Only the characters of a text and its terminator count. -/
theorem Reads.congr {s t : Nat → UInt8} {w : List UInt8} (reads : Reads s w)
    (same : ∀ i, i ≤ w.length → t i = s i) : Reads t w where
  char i h := (same i (Nat.le_of_lt h)).trans (reads.char i h)
  nonNul := reads.nonNul
  stop := (same _ (Nat.le_refl _)).trans reads.stop

theorem Reads.drop {s : Nat → UInt8} {w : List UInt8} (reads : Reads s w) {k : Nat}
    (inside : k ≤ w.length) : Reads (fun i => s (k + i)) (w.drop k) where
  char i h := by
    rw [List.getElem_drop]
    exact reads.char _ _
  nonNul b member := reads.nonNul b (List.mem_of_mem_drop member)
  stop := by
    rw [List.length_drop, Nat.add_sub_cancel' inside]
    exact reads.stop

/-- The second of two texts that follow each other. -/
theorem Reads.behind {s : Nat → UInt8} {v w : List UInt8} (reads : Reads s (v ++ w)) :
    Reads (fun i => s (v.length + i)) w := by
  have rest := reads.drop (show v.length ≤ (v ++ w).length by simp)
  rwa [List.drop_left] at rest

theorem reads_zero_add {s : Nat → UInt8} {w : List UInt8} :
    Reads (fun j => s (0 + j)) w ↔ Reads s w := by
  have same : (fun j => s (0 + j)) = s := funext fun j => congrArg s (Nat.zero_add j)
  rw [same]

/-- The text behind a first character. -/
theorem Reads.tail {s : Nat → UInt8} {i : Nat} {b : UInt8} {w : List UInt8}
    (reads : Reads (fun j => s (i + j)) (b :: w)) : Reads (fun j => s (i + 1 + j)) w := by
  have rest := reads.drop (show 1 ≤ (b :: w).length by simp)
  exact rest.congr fun j _ => congrArg s (Nat.add_assoc i 1 j)

/-- A copy of the first characters with a terminator behind them. -/
theorem Reads.take {s t : Nat → UInt8} {w : List UInt8} (reads : Reads s w) {n : Nat}
    (copied : ∀ i, i < (w.take n).length → t i = s i) (stop : t (w.take n).length = 0) :
    Reads t (w.take n) where
  char i h := by
    rw [copied i h, List.getElem_take]
    exact reads.char i _
  nonNul b member := reads.nonNul b (List.mem_of_mem_take member)
  stop := stop

/-- One text behind the characters of another. -/
theorem Reads.append {s t : Nat → UInt8} {v w : List UInt8} (front : Reads s v)
    (kept : ∀ i, i < v.length → t i = s i) (behind : Reads (fun i => t (v.length + i)) w) :
    Reads t (v ++ w) where
  char i h := by
    by_cases early : i < v.length
    · rw [List.getElem_append_left early, kept i early]
      exact front.char i early
    · rw [List.length_append] at h
      have here := behind.char (i - v.length) (by omega)
      rw [Nat.add_sub_cancel' (Nat.le_of_not_lt early)] at here
      rw [List.getElem_append_right (Nat.le_of_not_lt early), here]
  nonNul b member := by
    rcases List.mem_append.mp member with first | second
    · exact front.nonNul b first
    · exact behind.nonNul b second
  stop := by
    rw [List.length_append]
    exact behind.stop

/-- A character and the text behind it. -/
theorem Reads.cons {s : Nat → UInt8} {i : Nat} {b : UInt8} {w : List UInt8} (here : s i = b)
    (charged : b ≠ 0) (behind : Reads (fun j => s (i + 1 + j)) w) :
    Reads (fun j => s (i + j)) (b :: w) where
  char j h := by
    cases j with
    | zero => exact here
    | succ j =>
        have later := behind.char j (Nat.lt_of_succ_lt_succ h)
        rwa [Nat.add_assoc, Nat.add_comm 1 j] at later
  nonNul c member := by
    rcases List.mem_cons.mp member with rfl | later
    · exact charged
    · exact behind.nonNul c later
  stop := by
    rw [List.length_cons, Nat.add_comm w.length, ← Nat.add_assoc]
    exact behind.stop

/-- A whole string is a text. -/
theorem CString.reads (w : CString) : Reads w.char w.bytes where
  char _ h := List.getD_eq_getElem _ _ h
  nonNul := w.nonNul
  stop := (w.char_eq_zero_iff _).mpr (Nat.le_refl _)

theorem Reads.head {s : Nat → UInt8} {w : List UInt8} (reads : Reads s w) {b : UInt8}
    (first : w.head? = some b) : s 0 = b := by
  cases w with
  | nil => cases first
  | cons a w =>
      cases first
      exact reads.char 0 (Nat.zero_lt_succ _)

/-- A first character that is no terminator begins the text. -/
theorem Reads.head_eq {s : Nat → UInt8} {w : List UInt8} (reads : Reads s w) {b : UInt8}
    (here : s 0 = b) (charged : b ≠ 0) : w.head? = some b := by
  cases w with
  | nil => exact absurd (here.symm.trans reads.stop) charged
  | cons a w =>
      rw [← here]
      exact congrArg some (reads.char 0 (Nat.zero_lt_succ _)).symm

theorem Reads.last {s : Nat → UInt8} {w : List UInt8} (reads : Reads s w) {c : UInt8}
    (last : w.getLast? = some c) : s (w.length - 1) = c := by
  have here : w[w.length - 1]? = some c := by
    rw [← List.getLast?_eq_getElem?]
    exact last
  obtain ⟨inside, same⟩ := List.getElem?_eq_some_iff.mp here
  rw [reads.char _ inside]
  exact same

/-- A text in memory is cut where a NUL is stored. -/
theorem Reads.cut {mem : Memory UInt8} {w : List UInt8} (reads : Reads mem w) {k : Nat}
    (inside : k ≤ w.length) : Reads (mem.set k 0) (w.take k) := by
  have length : (w.take k).length = k := List.length_take_of_le inside
  refine reads.take (fun i below => ?_) ?_
  · exact mem.set_other 0 (by omega)
  · rw [length]
    exact mem.set_same k 0

/-- A NUL behind the front of a text leaves the front. -/
theorem Reads.cut_append {mem : Memory UInt8} {v w : List UInt8} (reads : Reads mem (v ++ w)) :
    Reads (mem.set v.length 0) v := by
  have cut := reads.cut (show v.length ≤ (v ++ w).length by simp)
  rwa [List.take_left] at cut

theorem Reads.cut_at {mem : Memory UInt8} {i : Nat} {v w : List UInt8}
    (reads : Reads (fun j => mem (i + j)) (v ++ w)) :
    Reads (fun j => (mem.set (i + v.length) 0) (i + j)) v where
  char j h := by
    have here := reads.char j (by rw [List.length_append]; omega)
    rw [List.getElem_append_left h] at here
    exact (mem.set_other 0 (by omega)).trans here
  nonNul b member := reads.nonNul b (List.mem_append_left w member)
  stop := mem.set_same _ 0

/-- A text behind an index does not change with what is stored before it. -/
theorem Reads.set_before {mem : Memory UInt8} {w : List UInt8} {i k : Nat}
    (reads : Reads (fun j => mem (k + j)) w) (before : i < k) (b : UInt8) :
    Reads (fun j => (mem.set i b) (k + j)) w := by
  have same : (fun j => (mem.set i b) (k + j)) = fun j => mem (k + j) :=
    funext fun j => mem.set_other b (by omega)
  rw [same]
  exact reads

/-- A text in memory is what stands in front of the first NUL of its range. -/
theorem Reads.takeWhile_slice {mem : Memory UInt8} {w : List UInt8} {a n : Nat}
    (reads : Reads (fun j => mem (a + j)) w) (room : w.length < n) :
    (mem.slice a n).takeWhile (· != 0) = w := by
  induction w generalizing a n with
  | nil =>
      obtain ⟨n, rfl⟩ := Nat.exists_eq_succ_of_ne_zero (Nat.ne_of_gt room)
      have stop : mem a = 0 := reads.stop
      rw [Nat.succ_eq_add_one, Memory.slice_succ, List.takeWhile_cons_of_neg (by simp [stop])]
  | cons b w ih =>
      obtain ⟨n, rfl⟩ := Nat.exists_eq_succ_of_ne_zero (Nat.ne_of_gt (Nat.zero_lt_of_lt room))
      have here : mem a = b := reads.head rfl
      have charged : b ≠ 0 := reads.nonNul b List.mem_cons_self
      rw [Nat.succ_eq_add_one, Memory.slice_succ, here, List.takeWhile_cons_of_pos (by simpa),
        ih reads.tail (Nat.lt_of_succ_lt_succ room)]

/-- Bytes stored with a terminator are a text up to their first NUL. -/
theorem reads_write_bytes (mem : Memory UInt8) (bytes : List UInt8) :
    Reads (mem.write 0 (bytes ++ [0])) (bytes.takeWhile (· != 0)) := by
  obtain ⟨split, nonNul, behind⟩ := takeWhile_split 0 bytes
  have stored (i : Nat) (h : i < (bytes ++ [0]).length) :
      mem.write 0 (bytes ++ [0]) i = (bytes ++ [0])[i] := by
    have here := mem.write_inside 0 (bytes ++ [0]) h
    rwa [Nat.zero_add] at here
  generalize bytes.takeWhile (· != 0) = text at *
  generalize bytes.dropWhile (· != 0) = rest at *
  subst split
  refine ⟨fun i h => ?_, nonNul, ?_⟩
  · rw [stored i (by simp; omega), List.getElem_append_left (by simp; omega),
      List.getElem_append_left h]
  · rw [stored text.length (by simp)]
    cases rest with
    | nil => simp
    | cons b rest =>
        simpa using behind b rfl

end CprFormal.Strchar.Strlen
