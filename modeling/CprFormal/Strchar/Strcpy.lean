import CprFormal.Library.FlatMemory
import CprFormal.Strchar.Strlen

/-!
# Bounded copies

`cpr_strcpy` counts the characters up to the limit, copies them and stores the
terminator in place of the last one.  That is right when the limit has cut the text; a
shorter text loses its last character, and for an empty one nothing is stored at all.
-/

namespace CprFormal.Strchar.Strcpy

open CprFormal.Library.FlatMemory
open CprFormal.Strchar.Strlen

/-- `cpr_strcpy` to address `m`.  The terminator takes the place of the last byte
copied. -/
def cprStrcpy (mem : Memory UInt8) (m : Nat) (s : CString) (limit : Nat) : Memory UInt8 :=
  let counted := cprStrlen s.char limit
  let size := if counted ≥ limit then limit else counted
  let copied := mem.write m (s.bytes.take size)
  if size ≠ 0 then copied.set (m + (size - 1)) 0 else copied

/-- `cpr_strcat`; a pointer that is `NULL` is `none`, and what is returned is where
`cpr_strcpy` has put the text. -/
def cprStrcat (mem : Memory UInt8) (m : Option Nat) (s : Option CString) (limit : Nat) :
    Memory UInt8 × Option Nat :=
  match m, s with
  | some m, some s =>
      let offset := cprStrlen (fun i => mem (m + i)) limit
      if offset ≥ limit then (mem, none)
      else (cprStrcpy mem (m + offset) s (limit - offset), some (m + offset))
  | _, _ => (mem, none)

/-- `n` bytes are stored at `out`: the first characters of a text and a terminator. -/
structure Stores (before after : Memory UInt8) (out n : Nat) (s : CString) : Prop where
  text : ∀ j, j + 1 < n → after (out + j) = s.char j
  stop : 0 < n → after (out + (n - 1)) = 0
  outside : before.SameOutside after out (out + n)

/-- Characters of a text, the last of which a terminator may replace. -/
theorem stores_write {s : CString} (mem : Memory UInt8) (m : Nat) {k n : Nat} (positive : 0 < n)
    (low : n ≤ k + 1) (high : k ≤ n) (within : k ≤ s.length) :
    Stores mem ((mem.write m (s.bytes.take k)).set (m + (n - 1)) 0) m n s := by
  have length : (s.bytes.take k).length = k := List.length_take_of_le within
  refine ⟨fun j before => ?_, fun _ => Memory.set_same _ _ _, fun i apart => ?_⟩
  · have inside : j < s.bytes.length := Nat.lt_of_lt_of_le (by omega) within
    rw [Memory.set_other _ _ (by omega), Memory.write_inside _ _ _ (by omega),
      List.getElem_take]
    exact (s.reads.char j inside).symm
  · rw [Memory.set_other _ _ (by omega)]
    exact mem.write_outside _ (by omega)

/-- The count is the bound, and never more than the limit. -/
theorem cprStrcpy_stores (mem : Memory UInt8) (m : Nat) (s : CString) (limit : Nat) :
    Stores mem (cprStrcpy mem m s limit) m (min (cprStrlen s.char limit) limit) s := by
  have size : (if cprStrlen s.char limit ≥ limit then limit else cprStrlen s.char limit) =
      min (cprStrlen s.char limit) limit := by
    split <;> omega
  have within := cprStrlen_length s limit
  unfold cprStrcpy
  dsimp only
  rw [size]
  by_cases none : min (cprStrlen s.char limit) limit = 0
  · rw [none, if_neg (by decide), List.take_zero]
    exact ⟨fun j before => by omega, fun some_ => by omega, Memory.SameOutside.refl mem _ _⟩
  · rw [if_pos none]
    exact stores_write mem m (by omega) (by omega) (Nat.le_refl _) (by omega)

/-- Nothing outside the `limit` bytes from `m` on is written. -/
theorem cprStrcpy_outside (mem : Memory UInt8) {m i : Nat} (s : CString) {limit : Nat}
    (apart : i < m ∨ m + limit ≤ i) : cprStrcpy mem m s limit i = mem i :=
  (cprStrcpy_stores mem m s limit).outside i (by omega)

section Copies

variable {mem : Memory UInt8} {m : Nat} {s : CString} {limit : Nat}

/-- The length or the limit is copied, whichever is less. -/
theorem cprStrcpy_least (positive : 1 ≤ limit) {size : Nat} (least : min s.length limit = size) :
    Stores mem (cprStrcpy mem m s limit) m size s := by
  have stored := cprStrcpy_stores mem m s limit
  have counted : min (cprStrlen s.char limit) limit = size := by
    rw [cprStrlen_char, Nat.max_eq_right positive]
    omega
  rwa [counted] at stored

/-- A text that reaches the limit is cut to make room for the terminator. -/
theorem cprStrcpy_long (positive : 1 ≤ limit) (long : limit ≤ s.length) :
    Reads (fun j => cprStrcpy mem m s limit (m + j)) (s.bytes.take (limit - 1)) := by
  have stored : Stores mem (cprStrcpy mem m s limit) m limit s :=
    cprStrcpy_least positive (Nat.min_eq_right long)
  have front : (s.bytes.take (limit - 1)).length = limit - 1 :=
    List.length_take_of_le (Nat.le_trans (Nat.sub_le _ _) long)
  refine s.reads.take (fun i inside => ?_) ?_
  · exact stored.text i (by omega)
  · rw [front]
    exact stored.stop positive

/-- A shorter text that is not empty has a NUL in place of its last character. -/
theorem cprStrcpy_short (short : s.length < limit) (nonempty : s.length ≠ 0) :
    cprStrcpy mem m s limit (m + (s.length - 1)) = 0 := by
  have stored : Stores mem (cprStrcpy mem m s limit) m s.length s :=
    cprStrcpy_least (by omega) (Nat.min_eq_left (Nat.le_of_lt short))
  exact stored.stop (Nat.pos_of_ne_zero nonempty)

theorem cprStrcpy_empty (positive : 1 ≤ limit) (empty : s.length = 0) :
    cprStrcpy mem m s limit = mem := by
  have stored : Stores mem (cprStrcpy mem m s limit) m 0 s :=
    cprStrcpy_least positive (by omega)
  exact funext fun i => stored.outside i (by omega)

/-- The copy is the text cut to the limit exactly when the text reaches the limit, or
is empty and its terminator is there already. -/
theorem cprStrcpy_reads_iff (positive : 1 ≤ limit) :
    Reads (fun j => cprStrcpy mem m s limit (m + j)) (s.bytes.take (limit - 1)) ↔
      limit ≤ s.length ∨ s.length = 0 ∧ mem m = 0 := by
  constructor
  · intro reads
    by_contra fails
    rw [not_or] at fails
    obtain ⟨short, some_⟩ := fails
    have whole : s.bytes.take (limit - 1) = s.bytes :=
      List.take_of_length_le (show s.length ≤ limit - 1 by omega)
    rw [whole] at reads
    by_cases empty : s.length = 0
    · have stop := reads.stop
      have none : s.bytes.length = 0 := empty
      rw [none, cprStrcpy_empty positive empty] at stop
      exact some_ ⟨empty, stop⟩
    · have last : s.length - 1 < s.bytes.length := Nat.sub_one_lt empty
      exact reads.ne_zero last (cprStrcpy_short (Nat.lt_of_not_le short) empty)
  · rintro (long | ⟨empty, stop⟩)
    · exact cprStrcpy_long positive long
    · have none : s.bytes = [] := List.length_eq_zero_iff.mp empty
      rw [cprStrcpy_empty positive empty, none, List.take_nil]
      exact ⟨fun i inside => absurd inside (Nat.not_lt_zero i), fun b member => absurd member
        List.not_mem_nil, stop⟩

end Copies

/-- What a bounded copy promises: the text cut to what fits with its terminator, and no
byte behind the limit touched. -/
structure CopiesBounded (mem : Memory UInt8) (m : Nat) (s : CString) (limit : Nat) : Prop where
  text : Reads (fun j => cprStrcpy mem m s limit (m + j)) (s.bytes.take (limit - 1))
  outside : mem.SameOutside (cprStrcpy mem m s limit) m (m + limit)

/-- What a bounded concatenation to a text `w` promises. -/
structure AppendsBounded (mem : Memory UInt8) (m : Nat) (w : List UInt8) (s : CString)
    (limit : Nat) : Prop where
  text : Reads (fun j => (cprStrcat mem (some m) (some s) limit).1 (m + j))
    (w ++ s.bytes.take (limit - 1 - w.length))
  outside : mem.SameOutside (cprStrcat mem (some m) (some s) limit).1 m (m + limit)

/-- The text behind the first one is copied with the room that is left. -/
theorem cprStrcat_copies {mem : Memory UInt8} {m : Nat} {w : List UInt8}
    (reads : Reads (fun j => mem (m + j)) w) {limit : Nat} (fits : w.length < limit)
    (s : CString) :
    cprStrcat mem (some m) (some s) limit =
      (cprStrcpy mem (m + w.length) s (limit - w.length), some (m + w.length)) := by
  have offset : cprStrlen (fun i => mem (m + i)) limit = w.length := by
    rw [reads.strlen]
    omega
  unfold cprStrcat
  dsimp only
  rw [offset, if_neg (Nat.not_le.mpr fits)]

theorem cprStrcat_reads_iff {mem : Memory UInt8} {m : Nat} {w : List UInt8}
    (reads : Reads (fun j => mem (m + j)) w) {limit : Nat} (fits : w.length < limit)
    (s : CString) :
    AppendsBounded mem m w s limit ↔ limit - w.length ≤ s.length ∨ s.length = 0 := by
  have room : 1 ≤ limit - w.length := Nat.sub_pos_of_lt fits
  have stop : mem (m + w.length) = 0 := reads.stop
  have copies := cprStrcat_copies reads fits s
  have behind : Reads (fun j => cprStrcpy mem (m + w.length) s (limit - w.length)
      (m + w.length + j)) (s.bytes.take (limit - w.length - 1)) ↔
      limit - w.length ≤ s.length ∨ s.length = 0 ∧ mem (m + w.length) = 0 :=
    cprStrcpy_reads_iff room
  constructor
  · rintro ⟨text, _⟩
    rw [copies] at text
    have later := text.behind
    rw [show limit - 1 - w.length = limit - w.length - 1 by omega] at later
    simp only [← Nat.add_assoc] at later
    exact (behind.mp later).imp_right And.left
  · intro condition
    have later := behind.mpr (condition.imp_right fun empty => ⟨empty, stop⟩)
    refine ⟨?_, fun i apart => ?_⟩
    · rw [copies, show limit - 1 - w.length = limit - w.length - 1 by omega]
      refine reads.append (fun i inside => ?_) (by simpa only [Nat.add_assoc] using later)
      exact cprStrcpy_outside mem s (.inl (by omega))
    · rw [copies]
      exact cprStrcpy_outside mem s (by omega)

/-- A copy is bounded and whole exactly when the text reaches the limit, or is empty
with a terminator in place; a concatenation exactly when the text reaches what is left
or is empty. -/
theorem copies_iff (mem : Memory UInt8) (m : Nat) (s : CString) {limit : Nat}
    (positive : 1 ≤ limit) :
    (CopiesBounded mem m s limit ↔ limit ≤ s.length ∨ s.length = 0 ∧ mem m = 0) ∧
    ∀ w, Reads (fun j => mem (m + j)) w → w.length < limit →
      (AppendsBounded mem m w s limit ↔ limit - w.length ≤ s.length ∨ s.length = 0) := by
  constructor
  · rw [← cprStrcpy_reads_iff positive]
    exact ⟨CopiesBounded.text, fun text => ⟨text, fun i apart => cprStrcpy_outside mem s apart⟩⟩
  · exact fun w reads fits => cprStrcat_reads_iff reads fits s

/-- Three bytes of "abcd" are its first two and the terminator; behind "x" there is room
for one character in three bytes. -/
theorem copies_cut :
    CopiesBounded (fun _ => 1) 0 ⟨[97, 98, 99, 100], by simp⟩ 3 ∧
    AppendsBounded (fun i => if i = 0 then 120 else 0) 0 [120] ⟨[97, 98], by simp⟩ 3 := by
  have front : Reads (fun j => if 0 + j = 0 then 120 else 0) [120] :=
    ⟨by decide, by simp, rfl⟩
  exact ⟨(copies_iff _ 0 _ (by decide)).1.mpr (.inl (by decide)),
    ((copies_iff _ 0 _ (by decide)).2 [120] front (by decide)).mpr (.inl (by decide))⟩

/-- "ab" copied to eight bytes leaves "a". -/
theorem copies_short : ¬ CopiesBounded (fun _ => 1) 0 ⟨[97, 98], by simp⟩ 8 := by
  intro copied
  have last : (1 : Nat) < ([97, 98] : List UInt8).length := by decide
  exact copied.text.ne_zero last (by decide)

end CprFormal.Strchar.Strcpy
