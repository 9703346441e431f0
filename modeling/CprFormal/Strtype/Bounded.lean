import Mathlib.Data.List.DropRight
import CprFormal.Library.Transition
import CprFormal.Strtype.Model

/-!
# Counted strings as bounded strings

A well-formed `string_t` stands for the text in front of its terminator.  On the
texts the operations are list functions: copying and appending cut at `size - 1`
bytes, trimming and chopping drop the listed bytes from one end.  A list that lies
inside the string it chops is cut by every NUL that is stored, so that chopping stops
where the list begins.
-/

namespace CprFormal.Strtype.Bounded

open CprFormal.Library.FlatMemory CprFormal.Library.Transition
open CprFormal.Strchar.Ctype CprFormal.Strchar.Strlen
open CprFormal.Strtype.Model

structure WellFormed (str : StringT) : Prop where
  used : str.used < str.size
  text : ∀ i, i < str.used → str.mem i ≠ 0
  stop : str.mem str.used = 0

def value (str : StringT) : List UInt8 := str.mem.slice 0 str.used

/-- A string that holds a text within its capacity. -/
structure Holds (str : StringT) (w : List UInt8) : Prop where
  used : str.used = w.length
  room : w.length < str.size
  reads : Reads str.mem w

theorem value_eq {str : StringT} {w : List UInt8} (holds : Holds str w) : value str = w := by
  unfold value
  rw [holds.used]
  apply List.ext_getElem
  · simp
  · intro i low high
    rw [Memory.getElem_slice, Nat.zero_add, holds.reads.char i high]

theorem wellFormed_of_holds {str : StringT} {w : List UInt8} (holds : Holds str w) :
    WellFormed str where
  used := by
    rw [holds.used]
    exact holds.room
  text i inside := holds.reads.ne_zero (by rwa [← holds.used])
  stop := by
    rw [holds.used]
    exact holds.reads.stop

theorem holds_value {str : StringT} (wf : WellFormed str) : Holds str (value str) where
  used := by simp [value]
  room := by simpa [value] using wf.used
  reads := by
    refine ⟨fun i inside => ?_, fun b member => ?_, by simpa [value] using wf.stop⟩
    · simp [value, Memory.getElem_slice]
    · obtain ⟨i, inside, rfl⟩ := List.getElem_of_mem member
      simp only [value, Memory.slice_length] at inside
      simpa [value, Memory.getElem_slice] using wf.text i inside

/-- The text an argument points to. -/
def textOf (v : List UInt8) : Val → List UInt8
  | .null => []
  | .text w => w.bytes
  | .own k => v.drop k

/-- A pointer into the string points at its text or terminator. -/
def Inside (v : List UInt8) : Val → Prop
  | .own k => k ≤ v.length
  | _ => True

theorem reads_val {str : StringT} {v : List UInt8} (holds : Holds str v) {val : Val}
    (inside : Inside v val) : Reads (val.read str.mem) (textOf v val) := by
  cases val with
  | null => exact ⟨fun i h => absurd h (Nat.not_lt_zero i), by simp [textOf], rfl⟩
  | text w => exact w.reads
  | own k => exact holds.reads.drop inside

/-- An operation on a string; `clone` goes on with the copy in the block that
`malloc` returned. -/
inductive Op where
  | commit
  | clear
  | clone (block : Memory UInt8)
  | copy (val : Val)
  | append (val : Val)
  | upper
  | lower
  | trim (list : Val)
  | chop (list : Val)
  | tail (size : Nat)
  | head (size : Nat)

def perform (str : StringT) : Op → Option StringT
  | .commit => some (stringCommit str)
  | .clear => some (stringClear str)
  | .clone block => stringClone str (some block)
  | .copy val => some (stringCopy str val)
  | .append val => some (stringAppend str val)
  | .upper => stringUpper str.size str
  | .lower => stringLower str.size str
  | .trim list => some (stringTrim str list)
  | .chop list => some (stringChop str list)
  | .tail size => some (stringTail str size)
  | .head size => some (stringHead str size)

/-- The text without its longest listed suffix; with a list that is the text's own
end, the text in front of the list. -/
def chopped (v : List UInt8) : Val → List UInt8
  | .null => v
  | .text w => v.rdropWhile w.bytes.contains
  | .own k => v.take k

/-- What an operation does to a text in a capacity of `size`. -/
def act (size : Nat) (v : List UInt8) : Op → List UInt8
  | .commit => v
  | .clear => []
  | .clone _ => v
  | .copy val => (textOf v val).take (size - 1)
  | .append val => (v ++ textOf v val).take (size - 1)
  | .upper => v.map toupper
  | .lower => v.map tolower
  | .trim list => v.dropWhile (textOf v list).contains
  | .chop list => chopped v list
  | .tail n => v.take n
  | .head n => v.rtake n

/-- The argument points to a text. -/
def Argument (v : List UInt8) : Op → Prop
  | .copy val => Inside v val
  | .append val => Inside v val
  | .trim list => Inside v list
  | .chop list => Inside v list
  | _ => True

/-! ## Each operation -/

/-- A string of the given capacity that holds `v` and was written inside only. -/
structure Refines (size : Nat) (str : StringT) (v : List UInt8) : Prop where
  size : str.size = size
  holds : Holds str v
  written : InCapacity str

section Operations

variable {size : Nat} {str : StringT} {v : List UInt8}

/-- Copying any text that the argument reads. -/
theorem copy_refines (large : 2 ≤ size) (small : size ≤ 65535) (same : str.size = size)
    (written : InCapacity str) {val : Val} {w : List UInt8} (reads : Reads (val.read str.mem) w) :
    Refines size (stringCopy str val) (w.take (size - 1)) := by
  have done := stringCopy_done str val
  have limit : lessOne str.size = size - 1 := by
    rw [same]
    exact lessOne_of_pos (by omega)
  have len : cprStrlen (val.read str.mem) (lessOne str.size) = (w.take (size - 1)).length := by
    rw [reads.strlen, limit, List.length_take]
    omega
  have bound : (w.take (size - 1)).length ≤ size - 1 := List.length_take_le _ _
  rw [len] at done
  refine ⟨done.size.trans same, ⟨?_, ?_, reads.take done.text done.stop⟩, ?_⟩
  · rw [done.used]
    exact Nat.mod_eq_of_lt (by omega)
  · rw [done.size, same]
    omega
  · exact written.extend done.size done.written (fun i now => by omega)

/-- A text shorter than the capacity is copied whole. -/
theorem copy_short_refines (large : 2 ≤ size) (small : size ≤ 65535) (same : str.size = size)
    (written : InCapacity str) {val : Val} {w : List UInt8} (reads : Reads (val.read str.mem) w)
    (short : w.length < size) : Refines size (stringCopy str val) w := by
  have copied := copy_refines large small same written reads
  rwa [List.take_of_length_le (by omega)] at copied

theorem append_refines (large : 2 ≤ size) (small : size ≤ 65535) (before : Refines size str v)
    {val : Val} {w : List UInt8} (reads : Reads (val.read str.mem) w) :
    Refines size (stringAppend str val) ((v ++ w).take (size - 1)) := by
  obtain ⟨same, holds, written⟩ := before
  have used := holds.used
  have room := holds.room
  rw [same] at room
  unfold stringAppend
  by_cases full : (str.used : Int) ≥ (str.size : Int) - 1
  · rw [if_pos full]
    have whole : (v ++ w).take (size - 1) = v := by
      rw [show size - 1 = v.length by omega, List.take_left]
    rw [whole]
    exact ⟨same, holds, written⟩
  · rw [if_neg full]
    dsimp only
    have len : cprStrlen (val.read str.mem) (str.size - str.used - 1) =
        (w.take (size - v.length - 1)).length := by
      rw [reads.strlen, same, used, List.length_take]
      omega
    have bound : (w.take (size - v.length - 1)).length ≤ size - v.length - 1 :=
      List.length_take_le _ _
    have done := appendCounted_done str val (show (w.take (size - v.length - 1)).length ≤
      str.size - str.used - 1 by omega)
    have cut : (v ++ w).take (size - 1) = v ++ w.take (size - v.length - 1) := by
      rw [List.take_append, List.take_of_length_le (by omega)]
      congr 2
      omega
    rw [len, cut]
    generalize appendCounted str val (str.size - str.used - 1)
      (w.take (size - v.length - 1)).length = appended at done ⊢
    obtain ⟨sized, counted, front, text, stop, wrote⟩ := done
    rw [used] at counted front text stop wrote
    refine ⟨sized.trans same, ⟨?_, ?_, holds.reads.append front (reads.take text stop)⟩, ?_⟩
    · rw [counted, List.length_append]
      unfold uint16
      omega
    · rw [List.length_append, sized, same]
      omega
    · exact written.extend sized wrote (fun i now => by omega)

theorem commit_refines (large : 2 ≤ size) (small : size ≤ 65535) (before : Refines size str v) :
    Refines size (stringCommit str) v := by
  obtain ⟨same, holds, written⟩ := before
  have room := holds.room
  refine ⟨same, ⟨?_, room, holds.reads⟩, written⟩
  change uint16 (cprStrlen str.mem (lessOne str.size)) = v.length
  rw [holds.reads.strlen, lessOne_of_pos (by omega)]
  unfold uint16
  omega

theorem clear_refines (before : Refines size str v) : Refines size (stringClear str) [] := by
  obtain ⟨same, holds, written⟩ := before
  have room : 0 < str.size := Nat.lt_of_le_of_lt (Nat.zero_le _) holds.room
  refine ⟨same, ⟨rfl, room, ⟨fun i inside => absurd inside (Nat.not_lt_zero i), by simp, ?_⟩⟩, ?_⟩
  · exact str.mem.set_same 0 0
  · exact written.poke room 0

theorem clone_refines (before : Refines size str v) (block : Memory UInt8) :
    ∃ dup, stringClone str (some block) = some dup ∧ Refines size dup v := by
  obtain ⟨same, holds, written⟩ := before
  have copied (i : Nat) (inside : i < str.size) :
      block.write 0 (str.mem.slice 0 str.size) i = str.mem i := by
    have found := block.write_inside 0 (str.mem.slice 0 str.size) (i := i) (by simpa using inside)
    rwa [Memory.getElem_slice, Nat.zero_add] at found
  refine ⟨_, rfl, same, ⟨holds.used, holds.room, ⟨fun i inside => ?_, holds.reads.nonNul, ?_⟩⟩, ?_⟩
  · exact (copied i (Nat.lt_trans inside holds.room)).trans (holds.reads.char i inside)
  · exact (copied _ holds.room).trans holds.reads.stop
  · intro i member
    rcases List.mem_append.mp member with earlier | now
    · exact written i earlier
    · exact List.mem_range.mp now

/-- What the case loop leaves of the `len` characters from `i` on. -/
structure Converted (convert : UInt8 → UInt8) (len i : Nat) (str converted : StringT) : Prop where
  size : converted.size = str.size
  used : converted.used = str.used
  inside : ∀ j, i ≤ j → j < i + len → converted.mem j = convert (str.mem j)
  outside : ∀ j, j < i ∨ i + len ≤ j → converted.mem j = str.mem j
  written : ∀ j ∈ converted.written, j ∈ str.written ∨ j < i + len

theorem caseLoop_converted (convert : UInt8 → UInt8) {len i fuel : Nat} {str : StringT}
    (text : ∀ j, i ≤ j → j < i + len → str.mem j ≠ 0) (stop : str.mem (i + len) = 0)
    (enough : len < fuel) :
    ∃ converted, caseLoop convert fuel i str = some converted ∧
      Converted convert len i str converted := by
  induction fuel generalizing len i str with
  | zero => exact absurd enough (Nat.not_lt_zero _)
  | succ fuel ih =>
      cases len with
      | zero =>
          have stopped : caseLoop convert (fuel + 1) i str = some str := if_pos stop
          exact ⟨str, stopped, rfl, rfl, fun j low high => by omega, fun j _ => rfl,
            fun j member => .inl member⟩
      | succ len =>
          let poked := str.poke i (convert (str.mem i))
          have other (j : Nat) (ahead : i < j) : poked.mem j = str.mem j :=
            str.mem.set_other _ (by omega)
          have here := text i (Nat.le_refl _) (by omega)
          have later : ∀ j, i + 1 ≤ j → j < i + 1 + len → poked.mem j ≠ 0 := by
            intro j low high
            rw [other j low]
            exact text j (by omega) (by omega)
          have behind : poked.mem (i + 1 + len) = 0 := by
            rw [other _ (by omega), Nat.add_assoc, Nat.add_comm 1 len]
            exact stop
          obtain ⟨converted, ended, rest⟩ := ih later behind (by omega)
          have goesOn : caseLoop convert (fuel + 1) i str = some converted := (if_neg here).trans ended
          refine ⟨converted, goesOn, rest.size, rest.used, fun j low high => ?_,
            fun j apart => ?_, fun j member => ?_⟩
          · by_cases first : j = i
            · subst first
              exact (rest.outside j (by omega)).trans (str.mem.set_same _ _)
            · rw [rest.inside j (by omega) (by omega), other j (by omega)]
          · exact (rest.outside j (by omega)).trans (str.mem.set_other _ (by omega))
          · exact written_poke (rest.written j member)

theorem case_refines {convert : UInt8 → UInt8} (keeps : ∀ b, convert b = 0 ↔ b = 0)
    (before : Refines size str v) :
    ∃ converted, caseLoop convert str.size 0 str = some converted ∧
      Refines size converted (v.map convert) := by
  obtain ⟨same, holds, written⟩ := before
  have text : ∀ j, 0 ≤ j → j < 0 + v.length → str.mem j ≠ 0 :=
    fun j _ below => holds.reads.ne_zero (by omega)
  have stop : str.mem (0 + v.length) = 0 := by
    rw [Nat.zero_add]
    exact holds.reads.stop
  obtain ⟨converted, ended, done⟩ := caseLoop_converted convert text stop holds.room
  have length : (v.map convert).length = v.length := List.length_map _
  refine ⟨converted, ended, done.size.trans same, ⟨?_, ?_, ⟨fun i inside => ?_, ?_, ?_⟩⟩, ?_⟩
  · rw [done.used, length]
    exact holds.used
  · rw [done.size, length]
    exact holds.room
  · rw [length] at inside
    rw [done.inside i (Nat.zero_le _) (by omega), List.getElem_map, holds.reads.char i inside]
  · intro b member
    obtain ⟨a, old, rfl⟩ := List.mem_map.mp member
    exact fun zero => holds.reads.nonNul a old ((keeps a).mp zero)
  · rw [length, done.outside _ (by omega)]
    exact holds.reads.stop
  · have room := holds.room
    exact written.extend done.size done.written (fun i now => by omega)

/-- The list of a call that is inside the string or elsewhere. -/
theorem chars_list (holds : Holds str v) {list : Val} (inside : Inside v list) :
    (list.chars str.mem str.size).bytes = textOf v list := by
  cases list with
  | null => rfl
  | text w => rfl
  | own k => exact Val.chars_own holds.reads holds.room inside

theorem strlen_whole (holds : Holds str v) : cprStrlen str.mem (lessOne str.size) = v.length := by
  have room := holds.room
  rw [holds.reads.strlen, lessOne_of_pos (by omega)]
  omega

/-- The trimming loop stops behind the leading listed bytes. -/
theorem trimLoop_eq (mem : Memory UInt8) (list : CString) {u : List UInt8} {i : Nat}
    (text : ∀ j (h : j < u.length), mem (i + j) = u[j]) (nonNul : ∀ b ∈ u, b ≠ 0) :
    trimLoop mem list u.length i = i + (u.takeWhile list.bytes.contains).length := by
  induction u generalizing i with
  | nil => rfl
  | cons b u ih =>
      have here : mem i = b := text 0 (Nat.zero_lt_succ _)
      have char : b ≠ 0 := nonNul b List.mem_cons_self
      have rest (j : Nat) (h : j < u.length) : mem (i + 1 + j) = u[j] := by
        rw [Nat.add_assoc, Nat.add_comm 1 j]
        exact text (j + 1) (Nat.succ_lt_succ h)
      have later := ih rest fun c member => nonNul c (List.mem_cons_of_mem b member)
      rw [List.length_cons, trimLoop, here, if_neg char, strchr_of_ne_zero list char]
      cases inList : list.bytes.contains b with
      | true =>
          rw [if_pos rfl, later, List.takeWhile_cons_of_pos inList, List.length_cons]
          omega
      | false =>
          rw [if_neg Bool.false_ne_true, List.takeWhile_cons_of_neg (by rw [inList]; simp)]
          rfl

theorem strtrim_eq (holds : Holds str v) (list : CString) :
    cprStrtrim str.mem list str.size = (v.takeWhile list.bytes.contains).length := by
  unfold cprStrtrim
  split
  · rename_i none
    cases v with
    | nil => rfl
    | cons b v =>
        rw [List.takeWhile_cons_of_neg (by rw [contains_of_isEmpty none]; simp)]
        rfl
  · rw [strlen_whole holds, trimLoop_eq str.mem list _ holds.reads.nonNul, Nat.zero_add]
    intro j inside
    rw [Nat.zero_add]
    exact holds.reads.char j inside

theorem reads_dropWhile {mem : Nat → UInt8} (reads : Reads mem v) (p : UInt8 → Bool) :
    Reads (fun i => mem ((v.takeWhile p).length + i)) (v.dropWhile p) := by
  have halves : v.takeWhile p ++ v.dropWhile p = v := List.takeWhile_append_dropWhile
  rw [← halves] at reads
  exact reads.behind

theorem trim_refines (large : 2 ≤ size) (small : size ≤ 65535) (before : Refines size str v)
    {list : Val} (inside : Inside v list) :
    Refines size (stringTrim str list) (v.dropWhile (textOf v list).contains) := by
  have room := before.holds.room
  rw [before.size] at room
  have shorter := (List.dropWhile_suffix (l := v) (textOf v list).contains).length_le
  unfold stringTrim
  rw [strtrim_eq before.holds, chars_list before.holds inside]
  exact copy_short_refines large small before.size before.written
    (reads_dropWhile before.holds.reads _) (by omega)

/-- One step of the chopping loop on a text with a last character. -/
theorem chopLoop_append (list : Val) {u : List UInt8} {b : UInt8}
    (reads : Reads str.mem (u ++ [b])) :
    chopLoop list (u ++ [b]).length str =
      if (list.chars str.mem str.size).bytes.contains b then
        chopLoop list u.length (str.poke u.length 0)
      else str := by
  have char : b ≠ 0 := reads.nonNul b (by simp)
  have here : str.mem u.length = b := by
    rw [reads.char u.length (by simp)]
    simp
  rw [List.length_append, List.length_singleton, chopLoop, here, strchr_of_ne_zero _ char]

/-- Chopping with a list elsewhere leaves the text without its trailing listed
bytes. -/
theorem chopLoop_reads (w : CString) (reads : Reads str.mem v) :
    Reads (chopLoop (.text w) v.length str).mem (v.rdropWhile w.bytes.contains) := by
  induction v using List.reverseRecOn generalizing str with
  | nil => exact reads
  | append_singleton u b ih =>
      rw [chopLoop_append _ reads, Val.chars]
      cases listed : w.bytes.contains b with
      | true =>
          rw [if_pos rfl, List.rdropWhile_concat_pos _ _ _ listed]
          exact ih reads.cut_append
      | false =>
          rw [if_neg Bool.false_ne_true, List.rdropWhile_concat_neg _ _ _ (by rw [listed]; simp)]
          exact reads

/-- Chopping with a list inside the text itself: the last byte is one of the list as
long as the list has bytes, and each NUL stored takes one from both. -/
theorem chopLoop_own_reads {k : Nat} (reads : Reads str.mem v) (room : v.length < str.size)
    (inside : k ≤ v.length) : Reads (chopLoop (.own k) v.length str).mem (v.take k) := by
  induction v using List.reverseRecOn generalizing str with
  | nil =>
      rw [List.take_nil]
      exact reads
  | append_singleton u b ih =>
      rw [chopLoop_append _ reads, Val.chars_own reads room inside]
      have length : (u ++ [b]).length = u.length + 1 := List.length_append
      rw [length] at room inside
      by_cases short : k ≤ u.length
      · have listed : ((u ++ [b]).drop k).contains b = true := by
          rw [List.drop_append_of_le_length short]
          simp
        rw [if_pos listed, List.take_append_of_le_length short]
        exact ih reads.cut_append (Nat.lt_of_succ_lt room) short
      · have whole : (u ++ [b]).length ≤ k := by omega
        rw [List.drop_of_length_le whole, List.take_of_length_le whole]
        exact reads

theorem strchop_reads (holds : Holds str v) {list : Val} (inside : Inside v list) :
    Reads (cprStrchop str list str.size).mem (chopped v list) := by
  unfold cprStrchop
  rw [chars_list holds inside, strlen_whole holds]
  split
  · rename_i none
    have empty : textOf v list = [] := List.isEmpty_iff.mp none
    have kept : chopped v list = v := by
      cases list with
      | null => rfl
      | text w =>
          have bytes : w.bytes = [] := empty
          rw [chopped, bytes, List.rdropWhile_eq_self_iff]
          intro nonempty
          simp
      | own k => exact List.take_of_length_le (List.drop_eq_nil_iff.mp empty)
    rw [kept]
    exact holds.reads
  · rename_i some_listed
    cases list with
    | null => exact absurd rfl some_listed
    | text w => exact chopLoop_reads w holds.reads
    | own k => exact chopLoop_own_reads holds.reads holds.room inside

/-- Chopping leaves a part of the text from its first byte on. -/
theorem chopped_length_le (v : List UInt8) (list : Val) : (chopped v list).length ≤ v.length := by
  cases list with
  | null => exact Nat.le_refl _
  | text w => exact (List.rdropWhile_prefix _ v).length_le
  | own k => exact List.length_take_le' k v

theorem chop_refines (large : 2 ≤ size) (small : size ≤ 65535) (before : Refines size str v)
    {list : Val} (inside : Inside v list) :
    Refines size (stringChop str list) (chopped v list) := by
  have room := before.holds.room
  rw [before.size] at room
  have frame := strchop_frame str list str.size
  have same : (cprStrchop str list str.size).size = size := frame.size.trans before.size
  have written : InCapacity (cprStrchop str list str.size) := by
    refine before.written.extend frame.size frame.written (fun i now => ?_)
    rw [strlen_whole before.holds] at now
    rw [before.size]
    omega
  have shorter := chopped_length_le v list
  have reads : Reads (Val.read (cprStrchop str list str.size).mem (.own 0)) (chopped v list) := by
    have left := (strchop_reads before.holds inside).drop (Nat.zero_le _)
    rwa [List.drop_zero] at left
  exact copy_short_refines large small same written reads (by omega)

theorem tail_refines (small : size ≤ 65535) (before : Refines size str v) (n : Nat) :
    Refines size (stringTail str n) (v.take n) := by
  obtain ⟨same, holds, written⟩ := before
  have room := holds.room
  have used := holds.used
  have cut : (if n > str.used then str.used else n) = (v.take n).length := by
    rw [List.length_take]
    split
    · omega
    · omega
  have length : (v.take n).length ≤ v.length := List.length_take_le' n v
  unfold stringTail
  rw [cut]
  refine ⟨same, ⟨Nat.mod_eq_of_lt (by omega), Nat.lt_of_le_of_lt length room, ?_⟩, ?_⟩
  · exact holds.reads.take (fun i below => str.mem.set_other _ (Nat.ne_of_lt below))
      (str.mem.set_same _ _)
  · exact written.poke (Nat.lt_of_le_of_lt length room) 0

theorem head_refines (large : 2 ≤ size) (small : size ≤ 65535) (before : Refines size str v)
    (n : Nat) : Refines size (stringHead str n) (v.rtake n) := by
  have room := before.holds.room
  rw [before.size] at room
  have start : str.used - (if n > str.used then str.used else n) = v.length - n := by
    rw [before.holds.used]
    split
    · omega
    · rfl
  have reads : Reads (Val.read str.mem (.own (v.length - n))) (v.rtake n) :=
    before.holds.reads.drop (Nat.sub_le _ _)
  have short : (v.rtake n).length < size := by
    unfold List.rtake
    rw [List.length_drop]
    omega
  unfold stringHead
  dsimp only
  rw [start]
  exact copy_short_refines large small before.size before.written reads short

/-- Every operation on a string that stands for `v` yields one that stands for what
the operation does to `v`. -/
theorem perform_refines (large : 2 ≤ size) (small : size ≤ 65535) (before : Refines size str v)
    (op : Op) (argument : Argument v op) :
    ∃ after, perform str op = some after ∧ Refines size after (act size v op) := by
  cases op with
  | commit => exact ⟨_, rfl, commit_refines large small before⟩
  | clear => exact ⟨_, rfl, clear_refines before⟩
  | clone block => exact clone_refines before block
  | copy val =>
      have reads := reads_val before.holds argument
      exact ⟨_, rfl, copy_refines large small before.size before.written reads⟩
  | append val =>
      exact ⟨_, rfl, append_refines large small before (reads_val before.holds argument)⟩
  | upper => exact case_refines toupper_eq_zero before
  | lower => exact case_refines tolower_eq_zero before
  | trim list => exact ⟨_, rfl, trim_refines large small before argument⟩
  | chop list => exact ⟨_, rfl, chop_refines large small before argument⟩
  | tail n => exact ⟨_, rfl, tail_refines small before n⟩
  | head n => exact ⟨_, rfl, head_refines large small before n⟩

/-- The same for a sequence of operations. -/
theorem run_refines (large : 2 ≤ size) (small : size ≤ 65535) (ops : List Op)
    (before : Refines size str v) (arguments : Throughout (act size) Argument v ops) :
    ∃ after, ops.foldlM perform str = some after ∧ Refines size after (ops.foldl (act size) v) := by
  induction ops generalizing str v with
  | nil => exact ⟨str, rfl, before⟩
  | cons op ops ih =>
      obtain ⟨next, performed, refined⟩ := perform_refines large small before op arguments.1
      obtain ⟨after, ran, done⟩ := ih refined arguments.2
      refine ⟨after, ?_, done⟩
      rw [List.foldlM_cons, performed]
      exact ran

end Operations

/-- Every sequence of operations on a well-formed string with a capacity of 2 to
65535 bytes returns, keeps it well formed with the same capacity, writes no index
beyond it, and does to its value what the operations do to texts. -/
theorem string_ops_refine_bounded (str : StringT) (wf : WellFormed str) (large : 2 ≤ str.size)
    (small : str.size ≤ 65535) (fresh : str.written = []) (ops : List Op)
    (arguments : Throughout (act str.size) Argument (value str) ops) :
    ∃ after, ops.foldlM perform str = some after ∧
      WellFormed after ∧ after.size = str.size ∧
      value after = ops.foldl (act str.size) (value str) ∧
      ∀ i ∈ after.written, i < after.size := by
  have written : InCapacity str := by
    intro i member
    rw [fresh] at member
    cases member
  obtain ⟨after, ran, same, holds, inside⟩ :=
    run_refines large small ops ⟨rfl, holds_value wf, written⟩ arguments
  exact ⟨after, ran, wellFormed_of_holds holds, same, value_eq holds, inside⟩

/-- A string `"acc"` of capacity 6: a clone chopped with the list `"c"` that is its
own last byte, an append that is cut, a trim, an append of its own text, a chop and an
upper. -/
theorem string_ops_refine_bounded_acc :
    let str : StringT := ⟨6, 3, fun i => if i = 0 then 97 else if i < 3 then 99 else 0, []⟩
    let ops : List Op := [.clone fun _ => 1, .chop (.own 2), .append (.text ⟨[99, 100, 101, 102],
      by simp⟩), .trim (.text ⟨[97], by simp⟩), .append (.own 3), .chop (.text ⟨[101], by simp⟩),
      .upper]
    ∃ after, ops.foldlM perform str = some after ∧
      WellFormed after ∧ after.size = 6 ∧ value after = [67, 67, 68] ∧
      ∀ i ∈ after.written, i < after.size :=
  string_ops_refine_bounded ⟨6, 3, fun i => if i = 0 then 97 else if i < 3 then 99 else 0, []⟩
    ⟨by decide, by decide, by decide⟩ (by decide) (by decide) rfl
    [.clone fun _ => 1, .chop (.own 2), .append (.text ⟨[99, 100, 101, 102], by simp⟩),
      .trim (.text ⟨[97], by simp⟩), .append (.own 3), .chop (.text ⟨[101], by simp⟩), .upper]
    ⟨trivial, by unfold Argument Inside; decide, trivial, trivial,
      by unfold Argument Inside; decide, trivial, trivial, trivial⟩

/-- Chopping `"acc"` with its own last byte leaves `"ac"`: both bytes are listed, but
the list is gone with the first one. -/
theorem string_chop_own_list :
    ¬ ∀ (str : StringT), WellFormed str → 2 ≤ str.size → str.size ≤ 65535 → ∀ (list : Val),
      Inside (value str) list →
        value (stringChop str list) =
          (value str).rdropWhile (textOf (value str) list).contains := by
  intro claimed
  have same := claimed ⟨8, 3, fun i => if i = 0 then 97 else if i < 3 then 99 else 0, []⟩
    ⟨by decide, by decide, by decide⟩ (by decide) (by decide) (.own 2) (by unfold Inside; decide)
  exact absurd same (by decide)

end CprFormal.Strtype.Bounded
