import CprFormal.Library.FlatMemory
import CprFormal.Library.SizeT
import CprFormal.Strchar.Ctype
import CprFormal.Strchar.Strlen

/-!
# The counted strings of `strtype.c`

A `string_t` is a header of two `uint16_t` followed by its bytes.  The bytes are
those at `string_get(str)`; reads and writes past the capacity go to whatever lies
behind, so the memory is not bounded here and every index that is written is
recorded.
-/

namespace CprFormal.Strtype.Model

open CprFormal.Library CprFormal.Library.FlatMemory
open CprFormal.Strchar.Ctype CprFormal.Strchar.Strlen

/-- The header of a `string_t`, the bytes behind it and the indices written so
far. -/
structure StringT where
  size : Nat
  used : Nat
  mem : Memory UInt8
  written : List Nat

/-- `mem[i] = b` -/
def StringT.poke (str : StringT) (i : Nat) (b : UInt8) : StringT :=
  { str with mem := str.mem.set i b, written := str.written ++ [i] }

/-- A `const char *` argument: `NULL`, a text elsewhere, or a pointer into the
string itself. -/
inductive Val where
  | null
  | text (w : CString)
  | own (k : Nat)
  deriving DecidableEq

/-- The character at an offset; `cpr_strlen` counts none behind `NULL`. -/
def Val.read (mem : Memory UInt8) : Val → Nat → UInt8
  | null, _ => 0
  | text w, i => w.char i
  | own k, i => mem (k + i)

/-- The text an argument points to in a string of the given capacity: one inside the
string is read up to its first NUL, which lies inside too. -/
def Val.chars (mem : Memory UInt8) (size : Nat) : Val → CString
  | null => .empty
  | text w => w
  | own k =>
      ⟨(mem.slice k (size - k)).takeWhile (· != 0), fun _ member =>
        bne_iff_ne.mp (List.mem_takeWhile_imp (p := (· != 0)) member)⟩

/-- `(uint16_t)n` -/
def uint16 (n : Nat) : Nat := n % 65536

/-- `size - 1` as a `size_t`. -/
def lessOne (size : Nat) : Nat := SizeT.sub size 1

/-- `new_string` over the bytes that `malloc` returned. -/
def newString (size : Nat) (block : Memory UInt8) : StringT :=
  ⟨uint16 size, 0, block, []⟩

/-- `string_commit` -/
def stringCommit (str : StringT) : StringT :=
  { str with used := uint16 (cprStrlen str.mem (lessOne str.size)) }

/-- `string_clear` -/
def stringClear (str : StringT) : StringT :=
  { str with used := 0 }.poke 0 0

/-- `string_clone` over the bytes that `malloc` returned, if it did: the header and
`size` bytes are copied.  The record of written indices goes on. -/
def stringClone (str : StringT) (block : Option (Memory UInt8)) : Option StringT :=
  block.map fun block =>
    { str with
      mem := block.write 0 (str.mem.slice 0 str.size)
      written := str.written ++ List.range str.size }

/-- `while (len--) *(mem++) = *(val++);` with both advanced `i` times. -/
def copyLoop (val : Val) : Nat → Nat → StringT → StringT
  | 0, _, str => str
  | len + 1, i, str => copyLoop val len (i + 1) (str.poke i (val.read str.mem i))

/-- The rest of `string_copy` once `len` is known; a string copied onto itself is
only cut. -/
def copyCounted (str : StringT) (val : Val) (len : Nat) : StringT :=
  if val = .own 0 then { str with used := uint16 len }.poke len 0
  else (copyLoop val len 0 { str with used := uint16 len }).poke len 0

/-- `string_copy` -/
def stringCopy (str : StringT) (val : Val) : StringT :=
  copyCounted str val (cprStrlen (val.read str.mem) (lessOne str.size))

/-- `memcpy(mem + at, val, len)`: the source is read as it was. -/
def StringT.memcpy (str : StringT) (at_ : Nat) (val : Val) (len : Nat) : StringT :=
  { str with
    mem := str.mem.write at_ ((List.range len).map (val.read str.mem))
    written := str.written ++ (List.range len).map (at_ + ·) }

/-- The rest of `string_append` once `len` is known.  `cpr_memcpy` refuses more than
`size` bytes and its answer is not looked at. -/
def appendCounted (str : StringT) (val : Val) (size len : Nat) : StringT :=
  let copied := if len ≠ 0 ∧ len ≤ size then str.memcpy str.used val len else str
  { copied.poke (str.used + len) 0 with used := uint16 (str.used + uint16 len) }

/-- `string_append`; in its test `size - 1` is an `int`. -/
def stringAppend (str : StringT) (val : Val) : StringT :=
  if (str.used : Int) ≥ (str.size : Int) - 1 then str
  else
    let size := str.size - str.used - 1
    appendCounted str val size (cprStrlen (val.read str.mem) size)

/-- `make_string` over the bytes that `malloc` returned. -/
def makeString (val : CString) (limit : Nat) (block : Memory UInt8) : StringT :=
  let size := cprStrlen val.char limit + 1
  stringCopy (newString size block) (.text val)

/-- The loops of `string_upper` and `string_lower`; `none` stands for a loop that
has used up its fuel. -/
def caseLoop (convert : UInt8 → UInt8) : Nat → Nat → StringT → Option StringT
  | 0, _, _ => none
  | fuel + 1, i, str =>
      if str.mem i = 0 then some str
      else caseLoop convert fuel (i + 1) (str.poke i (convert (str.mem i)))

/-- `string_upper` -/
def stringUpper (fuel : Nat) (str : StringT) : Option StringT :=
  caseLoop toupper fuel 0 str

/-- `string_lower` -/
def stringLower (fuel : Nat) (str : StringT) : Option StringT :=
  caseLoop tolower fuel 0 str

/-- `strchr(list, c) != NULL`; the terminator is found too. -/
def strchr (list : CString) (c : UInt8) : Bool := decide (c = 0) || list.bytes.contains c

/-- The loop of `cpr_strtrim`, with `str` at an index. -/
def trimLoop (mem : Memory UInt8) (list : CString) : Nat → Nat → Nat
  | 0, i => i
  | len + 1, i =>
      if mem i = 0 then i
      else if strchr list (mem i) then trimLoop mem list len (i + 1)
      else i

/-- `cpr_strtrim` on the bytes of a string; the result is an index.  Nothing is
stored, so a list inside the string stays what it is. -/
def cprStrtrim (mem : Memory UInt8) (list : CString) (limit : Nat) : Nat :=
  if list.bytes.isEmpty then 0
  else trimLoop mem list (cprStrlen mem (lessOne limit)) 0

/-- The loop of `cpr_strchop`, with `end` before it is decremented.  A list inside
the string is read again at every step, behind the NULs stored so far. -/
def chopLoop (list : Val) : Nat → StringT → StringT
  | 0, str => str
  | i + 1, str =>
      if strchr (list.chars str.mem str.size) (str.mem i) then chopLoop list i (str.poke i 0)
      else str

/-- `cpr_strchop` on the bytes of a string. -/
def cprStrchop (str : StringT) (list : Val) (limit : Nat) : StringT :=
  if (list.chars str.mem str.size).bytes.isEmpty then str
  else chopLoop list (cprStrlen str.mem (lessOne limit)) str

/-- `string_trim` -/
def stringTrim (str : StringT) (list : Val) : StringT :=
  stringCopy str (.own (cprStrtrim str.mem (list.chars str.mem str.size) str.size))

/-- `string_chop` -/
def stringChop (str : StringT) (list : Val) : StringT :=
  stringCopy (cprStrchop str list str.size) (.own 0)

/-- `string_tail` -/
def stringTail (str : StringT) (size : Nat) : StringT :=
  let size := if size > str.used then str.used else size
  { str.poke size 0 with used := uint16 size }

/-- `string_head` -/
def stringHead (str : StringT) (size : Nat) : StringT :=
  let size := if size > str.used then str.used else size
  stringCopy str (.own (str.used - size))

/-- No index beyond the capacity has been written. -/
def InCapacity (str : StringT) : Prop := ∀ i ∈ str.written, i < str.size

/-! ## What the copies do -/

theorem lessOne_of_pos {size : Nat} (positive : 0 < size) : lessOne size = size - 1 :=
  SizeT.sub_of_le positive

@[simp]
theorem poke_mem (str : StringT) (i : Nat) (b : UInt8) :
    (str.poke i b).mem = str.mem.set i b := rfl

theorem mem_poke_written {str : StringT} {i j : Nat} {b : UInt8} :
    j ∈ (str.poke i b).written ↔ j ∈ str.written ∨ j = i := by
  simp [StringT.poke]

/-- What is written behind an index that has been written. -/
theorem written_poke {str : StringT} {i j len : Nat} {b : UInt8}
    (rest : j ∈ (str.poke i b).written ∨ j < i + 1 + len) :
    j ∈ str.written ∨ j < i + (len + 1) := by
  rcases rest with earlier | later
  · rcases mem_poke_written.mp earlier with before | rfl
    · exact .inl before
    · exact .inr (by omega)
  · exact .inr (by omega)

theorem InCapacity.poke {str : StringT} (written : InCapacity str) {i : Nat} (inside : i < str.size)
    (b : UInt8) : InCapacity (str.poke i b) := by
  intro j member
  rcases mem_poke_written.mp member with earlier | rfl
  · exact written j earlier
  · exact inside

/-- What an operation writes besides has to lie inside the capacity. -/
theorem InCapacity.extend {str after : StringT} (written : InCapacity str)
    (same : after.size = str.size) {new : Nat → Prop}
    (wrote : ∀ j ∈ after.written, j ∈ str.written ∨ new j) (inside : ∀ j, new j → j < str.size) :
    InCapacity after := by
  intro j member
  rw [same]
  rcases wrote j member with earlier | now
  · exact written j earlier
  · exact inside j now

/-- Reading ahead of a write is not disturbed by it. -/
theorem read_set_behind (val : Val) (mem : Memory UInt8) (b : UInt8) {i j : Nat} (ahead : i < j) :
    val.read (mem.set i b) j = val.read mem j := by
  cases val with
  | null => rfl
  | text w => rfl
  | own k => exact mem.set_other b (by omega)

/-- What the copying loop leaves: reading is always at or ahead of the write, so an
overlap does no harm. -/
structure Copied (val : Val) (len i : Nat) (str copied : StringT) : Prop where
  size : copied.size = str.size
  used : copied.used = str.used
  inside : ∀ j, i ≤ j → j < i + len → copied.mem j = val.read str.mem j
  outside : ∀ j, j < i ∨ i + len ≤ j → copied.mem j = str.mem j
  written : ∀ j ∈ copied.written, j ∈ str.written ∨ j < i + len

theorem copyLoop_copied (val : Val) (len i : Nat) (str : StringT) :
    Copied val len i str (copyLoop val len i str) := by
  induction len generalizing i str with
  | zero =>
      exact ⟨rfl, rfl, fun j low high => by omega, fun j _ => rfl, fun j member => .inl member⟩
  | succ len ih =>
      have rest := ih (i + 1) (str.poke i (val.read str.mem i))
      refine ⟨rest.size, rest.used, fun j low high => ?_, fun j apart => ?_, fun j member => ?_⟩
      · by_cases first : j = i
        · subst first
          exact (rest.outside j (by omega)).trans (str.mem.set_same _ _)
        · rw [copyLoop, rest.inside j (by omega) (by omega)]
          exact read_set_behind val _ _ (by omega)
      · rw [copyLoop, rest.outside j (by omega)]
        exact str.mem.set_other _ (by omega)
      · exact written_poke (rest.written j member)

/-- What `string_copy` leaves: the counted characters and a terminator behind
them. -/
structure CopyDone (val : Val) (len : Nat) (str copied : StringT) : Prop where
  size : copied.size = str.size
  used : copied.used = uint16 len
  text : ∀ j, j < len → copied.mem j = val.read str.mem j
  stop : copied.mem len = 0
  written : ∀ j ∈ copied.written, j ∈ str.written ∨ j ≤ len
  last : len ∈ copied.written

theorem copyCounted_done (str : StringT) (val : Val) (len : Nat) :
    CopyDone val len str (copyCounted str val len) := by
  unfold copyCounted
  split
  · rename_i itself
    subst itself
    refine ⟨rfl, rfl, fun j below => ?_, str.mem.set_same _ _, fun j member => ?_,
      mem_poke_written.mpr (.inr rfl)⟩
    · simp only [poke_mem, Val.read, Nat.zero_add]
      exact str.mem.set_other _ (by omega)
    · exact (mem_poke_written.mp member).imp_right Nat.le_of_eq
  · have loop := copyLoop_copied val len 0 { str with used := uint16 len }
    refine ⟨loop.size, loop.used, fun j below => ?_, Memory.set_same _ _ _,
      fun j member => ?_, mem_poke_written.mpr (.inr rfl)⟩
    · rw [poke_mem, Memory.set_other _ _ (by omega)]
      exact loop.inside j (Nat.zero_le _) (by omega)
    · rcases mem_poke_written.mp member with before | rfl
      · rcases loop.written j before with earlier | copied
        · exact .inl earlier
        · exact .inr (by omega)
      · exact .inr (Nat.le_refl j)

theorem stringCopy_done (str : StringT) (val : Val) :
    CopyDone val (cprStrlen (val.read str.mem) (lessOne str.size)) str (stringCopy str val) :=
  copyCounted_done str val _

theorem copyCounted_outside (str : StringT) (val : Val) (len : Nat) :
    str.mem.SameOutside (copyCounted str val len).mem 0 (len + 1) := by
  intro i apart
  unfold copyCounted
  split
  · exact str.mem.set_other 0 (by omega)
  · have loop := copyLoop_copied val len 0 { str with used := uint16 len }
    rw [poke_mem, Memory.set_other _ _ (by omega)]
    exact loop.outside i (by omega)

/-- What `string_append` leaves: the text so far, the counted characters and a
terminator behind them. -/
structure AppendDone (val : Val) (len : Nat) (str appended : StringT) : Prop where
  size : appended.size = str.size
  used : appended.used = uint16 (str.used + uint16 len)
  before : ∀ j, j < str.used → appended.mem j = str.mem j
  text : ∀ j, j < len → appended.mem (str.used + j) = val.read str.mem j
  stop : appended.mem (str.used + len) = 0
  written : ∀ j ∈ appended.written, j ∈ str.written ∨ j ≤ str.used + len

theorem appendCounted_done (str : StringT) (val : Val) {size len : Nat} (fits : len ≤ size) :
    AppendDone val len str (appendCounted str val size len) := by
  unfold appendCounted
  by_cases none : len = 0
  · subst none
    refine ⟨rfl, rfl, fun j below => ?_, fun j below => absurd below (Nat.not_lt_zero j), ?_,
      fun j member => ?_⟩
    · exact str.mem.set_other _ (by omega)
    · exact str.mem.set_same _ _
    · exact ((mem_poke_written (b := 0)).mp member).imp_right Nat.le_of_eq
  · rw [if_pos ⟨none, fits⟩]
    have length : ((List.range len).map (val.read str.mem)).length = len := by simp
    refine ⟨rfl, rfl, fun j below => ?_, fun j below => ?_, Memory.set_same _ _ _,
      fun j member => ?_⟩
    · refine (Memory.set_other _ _ (by omega)).trans ?_
      exact str.mem.write_outside _ (.inl below)
    · refine (Memory.set_other _ _ (by omega)).trans ?_
      refine (str.mem.write_inside _ _ (by rwa [length])).trans ?_
      simp
    · rcases (mem_poke_written (b := 0)).mp member with before | now
      · rcases List.mem_append.mp before with earlier | copied
        · exact .inl earlier
        · obtain ⟨k, below, rfl⟩ := List.mem_map.mp copied
          have := List.mem_range.mp below
          exact .inr (by omega)
      · exact .inr (Nat.le_of_eq now)

/-- Chopping writes only where it looks. -/
structure ChopFrame (len : Nat) (str chopped : StringT) : Prop where
  size : chopped.size = str.size
  used : chopped.used = str.used
  written : ∀ j ∈ chopped.written, j ∈ str.written ∨ j < len

theorem chopLoop_frame (list : Val) (len : Nat) (str : StringT) :
    ChopFrame len str (chopLoop list len str) := by
  induction len generalizing str with
  | zero => exact ⟨rfl, rfl, fun j member => .inl member⟩
  | succ len ih =>
      unfold chopLoop
      split
      · have rest := ih (str.poke len 0)
        refine ⟨rest.size, rest.used, fun j member => ?_⟩
        rcases rest.written j member with earlier | later
        · rcases mem_poke_written.mp earlier with before | rfl
          · exact .inl before
          · exact .inr (Nat.lt_succ_self j)
        · exact .inr (by omega)
      · exact ⟨rfl, rfl, fun j member => .inl member⟩

theorem strchop_frame (str : StringT) (list : Val) (limit : Nat) :
    ChopFrame (cprStrlen str.mem (lessOne limit)) str (cprStrchop str list limit) := by
  unfold cprStrchop
  split
  · exact ⟨rfl, rfl, fun j member => .inl member⟩
  · exact chopLoop_frame list _ str

theorem strchr_of_ne_zero (list : CString) {b : UInt8} (nonNul : b ≠ 0) :
    strchr list b = list.bytes.contains b := by
  simp [strchr, nonNul]

/-- Nothing is found in an empty list. -/
theorem contains_of_isEmpty {list : CString} (none : list.bytes.isEmpty = true) (b : UInt8) :
    list.bytes.contains b = false := by
  rw [List.isEmpty_iff.mp none]
  rfl

/-- The text behind an offset of the text that a string holds. -/
theorem Val.chars_own {mem : Memory UInt8} {size : Nat} {v : List UInt8} (reads : Reads mem v)
    (room : v.length < size) {k : Nat} (inside : k ≤ v.length) :
    ((Val.own k).chars mem size).bytes = v.drop k := by
  refine (reads.drop inside).takeWhile_slice ?_
  rw [List.length_drop]
  omega

end CprFormal.Strtype.Model
