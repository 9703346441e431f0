import Mathlib.Data.List.Basic

/-!
# Flat memory

A memory maps every address to a cell.  A slice is the list of the cells of an
address range; writing a list replaces a range.  A slice sees a write to a range
apart from it unchanged, and finds in the written range what was written.
-/

namespace CprFormal.Library.FlatMemory

/-- Cells by address. -/
def Memory (α : Type) : Type := Nat → α

variable {α : Type}

namespace Memory

/-- The `n` cells from address `a` on. -/
def slice (m : Memory α) (a n : Nat) : List α :=
  (List.range n).map fun i => m (a + i)

/-- One cell is replaced. -/
def set (m : Memory α) (a : Nat) (x : α) : Memory α :=
  fun i => if i = a then x else m i

/-- The cells from address `a` on are replaced by `xs`. -/
def write (m : Memory α) (a : Nat) : List α → Memory α
  | [] => m
  | x :: xs => write (m.set a x) (a + 1) xs

/-- `n` cells are copied as if through a buffer of their own. -/
def move (m : Memory α) (dst src n : Nat) : Memory α :=
  m.write dst (m.slice src n)

@[simp]
theorem slice_zero (m : Memory α) (a : Nat) : m.slice a 0 = [] := rfl

@[simp]
theorem slice_length (m : Memory α) (a n : Nat) : (m.slice a n).length = n := by
  simp [slice]

theorem slice_succ (m : Memory α) (a n : Nat) :
    m.slice a (n + 1) = m a :: m.slice (a + 1) n := by
  unfold slice
  rw [List.range_succ_eq_map, List.map_cons, List.map_map]
  refine congrArg (m a :: ·) (List.map_congr_left ?_)
  intro i _
  simp only [Function.comp_apply]
  congr 1
  omega

theorem slice_append (m : Memory α) (a n k : Nat) :
    m.slice a (n + k) = m.slice a n ++ m.slice (a + n) k := by
  induction n generalizing a with
  | zero => simp
  | succ n ih =>
      rw [Nat.succ_add, slice_succ, ih, slice_succ, List.cons_append]
      congr 3
      omega

/-- Cutting a slice in two. -/
theorem slice_split (m : Memory α) (a : Nat) {n k : Nat} (h : k ≤ n) :
    m.slice a n = m.slice a k ++ m.slice (a + k) (n - k) := by
  rw [← slice_append, Nat.add_sub_cancel' h]

theorem slice_drop (m : Memory α) (a : Nat) {n k : Nat} (h : k ≤ n) :
    (m.slice a n).drop k = m.slice (a + k) (n - k) := by
  rw [m.slice_split a h]
  exact List.drop_left' (m.slice_length a k)

theorem slice_take (m : Memory α) (a : Nat) {n k : Nat} (h : k ≤ n) :
    (m.slice a n).take k = m.slice a k := by
  rw [m.slice_split a h]
  exact List.take_left' (m.slice_length a k)

/-- Of two slices from one address the shorter one begins the longer one. -/
theorem slice_prefix_slice_iff (m : Memory α) (a n k : Nat) :
    m.slice a n <+: m.slice a k ↔ n ≤ k := by
  constructor
  · intro begins
    simpa using begins.length_le
  · intro shorter
    rw [m.slice_split a shorter]
    exact List.prefix_append _ _

/-- A list begins a slice that is long enough when it is the slice of its own length. -/
theorem prefix_slice_iff (m : Memory α) (a : Nat) {n : Nat} {xs : List α} (h : xs.length ≤ n) :
    xs <+: m.slice a n ↔ m.slice a xs.length = xs := by
  rw [List.prefix_iff_eq_take, m.slice_take a h, eq_comm]

/-- A list occurs in a slice when it is the slice at some address of the range. -/
theorem infix_slice_iff (m : Memory α) (a n : Nat) (xs : List α) :
    xs <:+: m.slice a n ↔ ∃ i, i + xs.length ≤ n ∧ m.slice (a + i) xs.length = xs := by
  constructor
  · rintro ⟨before, behind, whole⟩
    have lengths := congrArg List.length whole
    simp only [List.length_append, slice_length] at lengths
    refine ⟨before.length, by omega, ?_⟩
    rw [List.append_assoc, m.slice_split a (show before.length ≤ n by omega),
      m.slice_split (a + before.length) (show xs.length ≤ n - before.length by omega)] at whole
    have rest := (List.append_inj whole (m.slice_length _ _).symm).2
    exact (List.append_inj rest (m.slice_length _ _).symm).1.symm
  · rintro ⟨i, inside, here⟩
    rw [m.slice_split a (show i ≤ n by omega),
      m.slice_split (a + i) (show xs.length ≤ n - i by omega), here, ← List.append_assoc]
    exact List.infix_append _ _ _

theorem getElem_slice (m : Memory α) (a n i : Nat) (h : i < (m.slice a n).length) :
    (m.slice a n)[i] = m (a + i) := by
  simp [slice]

/-- Two memories have the same slice when they agree on its range. -/
theorem slice_congr {m m' : Memory α} {a n : Nat}
    (same : ∀ i, i < n → m (a + i) = m' (a + i)) : m.slice a n = m'.slice a n := by
  apply List.map_congr_left
  intro i hi
  exact same i (List.mem_range.mp hi)

@[simp]
theorem set_same (m : Memory α) (a : Nat) (x : α) : m.set a x a = x := by
  simp [set]

theorem set_other (m : Memory α) {a i : Nat} (x : α) (h : i ≠ a) : m.set a x i = m i := by
  simp [set, h]

theorem slice_set_outside (m : Memory α) {a b n : Nat} (x : α)
    (apart : b < a ∨ a + n ≤ b) : (m.set b x).slice a n = m.slice a n := by
  apply slice_congr
  intro i hi
  exact m.set_other x (by omega)

theorem write_outside (m : Memory α) {a i : Nat} (xs : List α)
    (apart : i < a ∨ a + xs.length ≤ i) : m.write a xs i = m i := by
  induction xs generalizing m a with
  | nil => rfl
  | cons x xs ih =>
      simp only [List.length_cons] at apart
      rw [write, ih _ (by omega), m.set_other x (by omega)]

theorem slice_write_outside (m : Memory α) {a b n : Nat} (xs : List α)
    (apart : a + n ≤ b ∨ b + xs.length ≤ a) : (m.write b xs).slice a n = m.slice a n := by
  apply slice_congr
  intro i hi
  exact m.write_outside xs (by omega)

/-- The written range holds what was written. -/
theorem slice_write (m : Memory α) (a : Nat) (xs : List α) :
    (m.write a xs).slice a xs.length = xs := by
  induction xs generalizing m a with
  | nil => rfl
  | cons x xs ih =>
      rw [List.length_cons, slice_succ, write, ih, write_outside _ _ (by omega), set_same]

/-- A part of the written range from its first cell on. -/
theorem slice_write_take (m : Memory α) (a : Nat) (xs : List α) {n : Nat} (h : n ≤ xs.length) :
    (m.write a xs).slice a n = xs.take n := by
  have whole := m.slice_write a xs
  rw [slice_split _ _ h] at whole
  have cut := congrArg (List.take n) whole
  rwa [List.take_left' (slice_length _ _ _)] at cut

theorem write_inside (m : Memory α) (a : Nat) (xs : List α) {i : Nat} (h : i < xs.length) :
    m.write a xs (a + i) = xs[i] := by
  have written := m.slice_write a xs
  rw [← getElem_slice (m.write a xs) a xs.length i (by simpa using h)]
  congr 1

/-- A range that is written twice holds what was written last. -/
theorem write_write (m : Memory α) (a : Nat) {xs ys : List α} (same : xs.length = ys.length) :
    (m.write a xs).write a ys = m.write a ys := by
  funext i
  by_cases inside : a ≤ i ∧ i < a + ys.length
  · obtain ⟨k, rfl⟩ := Nat.exists_eq_add_of_le inside.1
    have here : k < ys.length := by omega
    rw [write_inside _ a ys here, write_inside _ a ys here]
  · rw [write_outside _ ys (by omega), write_outside _ xs (by omega),
      write_outside _ ys (by omega)]

theorem slice_move (m : Memory α) (dst src n : Nat) :
    (m.move dst src n).slice dst n = m.slice src n := by
  have written := m.slice_write dst (m.slice src n)
  rwa [slice_length] at written

/-- Outside `[lo, hi)` the second memory is the first one. -/
def SameOutside (m m' : Memory α) (lo hi : Nat) : Prop :=
  ∀ i, i < lo ∨ hi ≤ i → m' i = m i

theorem SameOutside.refl (m : Memory α) (lo hi : Nat) : m.SameOutside m lo hi :=
  fun _ _ => rfl

theorem SameOutside.trans {m m' m'' : Memory α} {lo hi : Nat} (first : m.SameOutside m' lo hi)
    (second : m'.SameOutside m'' lo hi) : m.SameOutside m'' lo hi :=
  fun i outside => (second i outside).trans (first i outside)

theorem SameOutside.widen {m m' : Memory α} {lo hi lo' hi' : Nat}
    (same : m.SameOutside m' lo hi) (low : lo' ≤ lo) (high : hi ≤ hi') :
    m.SameOutside m' lo' hi' :=
  fun i outside => same i (by omega)

/-- A slice apart from the range is the same. -/
theorem SameOutside.slice {m m' : Memory α} {lo hi a n : Nat} (same : m.SameOutside m' lo hi)
    (apart : a + n ≤ lo ∨ hi ≤ a) : m'.slice a n = m.slice a n := by
  apply slice_congr
  intro i hi
  exact same (a + i) (by omega)

theorem sameOutside_set (m : Memory α) {lo hi a : Nat} (x : α) (low : lo ≤ a) (high : a < hi) :
    m.SameOutside (m.set a x) lo hi :=
  fun i outside => m.set_other x (by omega)

theorem sameOutside_write (m : Memory α) {lo hi a : Nat} (xs : List α) (low : lo ≤ a)
    (high : a + xs.length ≤ hi) : m.SameOutside (m.write a xs) lo hi :=
  fun i outside => m.write_outside xs (by omega)

theorem sameOutside_move (m : Memory α) {lo hi dst n : Nat} (src : Nat) (low : lo ≤ dst)
    (high : dst + n ≤ hi) : m.SameOutside (m.move dst src n) lo hi := by
  apply sameOutside_write _ _ low
  rwa [slice_length]

end Memory

end CprFormal.Library.FlatMemory
