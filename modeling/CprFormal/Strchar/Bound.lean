import CprFormal.Address.Model
import CprFormal.Keyfile.LineBuffer
import CprFormal.Memio.Texts
import CprFormal.Mempager.Strdup
import CprFormal.Socket.Model
import CprFormal.Strtype.Model

/-!
# The bounded length and the copies that rest on it

`cpr_strlen` counts a character before it compares the count with the limit, so a limit
of zero is taken for one: the first character is read, and counted unless it is the
terminator.  For every other limit the count is the minimum that is meant.  The copies
store what has been counted and no more.
-/

namespace CprFormal.Strchar.Bound

open CprFormal.Library CprFormal.Library.FlatMemory
open CprFormal.Strchar.Strlen CprFormal.Strchar.Strcpy
open CprFormal.Strtype.Model CprFormal.Mempager.Model CprFormal.Mempager.Strdup
open CprFormal.Memio.Model CprFormal.Memio.Texts CprFormal.Socket.Model
open CprFormal.Keyfile.LineBuffer

section Reads

variable {mem : Memory UInt8} {i : Nat} {w : List UInt8}

/-- The loop reads on up to the terminator, or to the last character below the limit. -/
theorem strlenAccesses_eq (reads : Reads (fun j => mem (i + j)) w) {limit fuel count : Nat}
    (counted : count ≤ min w.length (limit - 1)) (enough : limit + 1 ≤ count + fuel) :
    strlenAccesses mem i limit fuel count =
      List.range' (i + count) (min w.length (limit - 1) + 1 - count) := by
  induction fuel generalizing count with
  | zero => omega
  | succ fuel ih =>
      -- a byte is read before the limit is looked at, so the range is never empty
      have first : min w.length (limit - 1) + 1 - count =
          min w.length (limit - 1) - count + 1 := Nat.succ_sub counted
      rw [first, List.range'_succ, strlenAccesses]
      refine congrArg _ ?_
      by_cases ends : count = w.length
      · have stop : mem (i + count) = 0 := by
          rw [ends]
          exact reads.stop
        rw [if_pos stop, show min w.length (limit - 1) - count = 0 by omega]
        rfl
      · have more : mem (i + count) ≠ 0 := reads.ne_zero (show count < w.length by omega)
        rw [if_neg more]
        split
        · rename_i below
          rw [ih (by omega) (by omega), Nat.add_sub_add_right]
          rfl
        · rw [show min w.length (limit - 1) - count = 0 by omega]
          rfl

theorem cprStrlenAccesses_eq (reads : Reads (fun j => mem (i + j)) w) (limit : Nat) :
    cprStrlenAccesses mem i limit = List.range' i (min w.length (limit - 1) + 1) :=
  strlenAccesses_eq reads (Nat.zero_le _) (by omega)

end Reads

/-- `cpr_strdup` over the bytes that `malloc` returned, and the size asked for. -/
def cprStrdup (block : Memory UInt8) (str : CString) (limit : Nat) : Memory UInt8 × Nat :=
  let len := cprStrlen str.char limit
  let copied := if len ≠ 0 then block.write 0 (str.bytes.take len) else block
  (copied.set len 0, len + 1)

/-- The functions that take the count of `cpr_strlen` for their bound. -/
structure Callers (s : CString) : Prop where
  strcpy : ∀ (mem : Memory UInt8) (m limit : Nat),
    Stores mem (cprStrcpy mem m s limit) m (min (cprStrlen s.char limit) limit) s
  strdup : ∀ (block : Memory UInt8) (limit : Nat),
    (cprStrdup block s limit).2 = cprStrlen s.char limit + 1 ∧
      Stores block (cprStrdup block s limit).1 0 (cprStrlen s.char limit + 1) s
  stringCopy : ∀ (str : StringT) (val : Val), Reads (val.read str.mem) s.bytes →
    Stores str.mem (stringCopy str val).mem 0 (cprStrlen s.char (lessOne str.size) + 1) s
  pagerStrdup : ∀ (state after : State) (block : Option Nat) (out : Nat),
    pagerStrdup state (some s) block = some (after, some out) →
      let limit := SizeT.sub (SizeT.sub state.pager.size sizeofPage) 1
      let size := SizeT.wrap (cprStrlen s.char limit + 1)
      (∃ allocated, pagerAlloc state size block = some (allocated, some out)) ∧
        Stores state.heap.bytes after.heap.bytes out (min (cprStrlen s.char size) size) s
  sputmem : ∀ mem : MemioT, mem.put ≤ mem.size → mem.size < 2 ^ 64 →
    let count := cprStrlen s.char mem.size
    cprSputmem mem (some s) =
      if count ≠ 0 ∧ mem.put + count ≤ mem.size then
        ({ mem with
            data := mem.data.write mem.put (s.bytes.take count)
            put := mem.put + count }, true)
      else (mem, false)
  putline : ∀ limit : Nat,
    cprPutline s limit = s.bytes.take (cprStrlen s.char (if limit ≠ 0 then 256 else limit))

section Copies

variable {s : CString}

theorem cprStrdup_stores (block : Memory UInt8) (limit : Nat) :
    Stores block (cprStrdup block s limit).1 0 (cprStrlen s.char limit + 1) s := by
  have stored := stores_write block 0 (Nat.zero_lt_succ (cprStrlen s.char limit))
    (Nat.le_refl _) (Nat.le_succ _) (cprStrlen_length s limit)
  rw [Nat.zero_add] at stored
  unfold cprStrdup
  dsimp only
  split
  · exact stored
  · rename_i none
    rw [not_not.mp none] at stored ⊢
    exact stored

/-- The text that `cpr_strdup` leaves is the one it gives back. -/
theorem cprStrdup_reads (block : Memory UInt8) (limit : Nat) :
    Reads (cprStrdup block s limit).1 (Address.Model.cprStrdup s limit).bytes := by
  have stored := cprStrdup_stores (s := s) block limit
  have length : (s.bytes.take (cprStrlen s.char limit)).length = cprStrlen s.char limit :=
    List.length_take_of_le (cprStrlen_length s limit)
  refine s.reads.take (fun i inside => ?_) ?_
  · have here := stored.text i (by omega)
    rwa [Nat.zero_add] at here
  · have stop := stored.stop (Nat.zero_lt_succ _)
    rwa [Nat.zero_add, Nat.add_sub_cancel, ← length] at stop

theorem stringCopy_stores {str : StringT} {val : Val} (reads : Reads (val.read str.mem) s.bytes) :
    Stores str.mem (stringCopy str val).mem 0 (cprStrlen s.char (lessOne str.size) + 1) s := by
  have same : cprStrlen (val.read str.mem) (lessOne str.size) =
      cprStrlen s.char (lessOne str.size) := (reads.strlen _).trans (s.reads.strlen _).symm
  have within := cprStrlen_length s (lessOne str.size)
  have done := stringCopy_done str val
  have outside := copyCounted_outside str val (cprStrlen (val.read str.mem) (lessOne str.size))
  rw [same] at done outside
  refine ⟨fun j before => ?_, fun _ => ?_, ?_⟩
  · have counted : j < cprStrlen s.char (lessOne str.size) := Nat.lt_of_succ_lt_succ before
    have inside : j < s.bytes.length := Nat.lt_of_lt_of_le counted within
    rw [Nat.zero_add, done.text j counted, reads.char j inside, s.reads.char j inside]
  · rw [Nat.zero_add]
    exact done.stop
  · rw [Nat.zero_add]
    unfold stringCopy
    rw [same]
    exact outside

theorem pagerStrdup_stores {state after : State} {block : Option Nat} {out : Nat}
    (done : pagerStrdup state (some s) block = some (after, some out)) :
    (∃ allocated, pagerAlloc state (strdupSize state (some s)) block =
        some (allocated, some out)) ∧
      Stores state.heap.bytes after.heap.bytes out
        (min (cprStrlen s.char (strdupSize state (some s))) (strdupSize state (some s))) s := by
  obtain ⟨allocated, call, bytes⟩ := strdup_copies done
  refine ⟨⟨allocated, call⟩, ?_⟩
  rw [bytes, alloc_bytes call]
  exact cprStrcpy_stores state.heap.bytes out s _

/-- An empty text is refused; any other is put as far as it is counted, if that fits. -/
theorem cprSputmem_stores {mem : MemioT} (below : mem.put ≤ mem.size)
    (word : mem.size < 2 ^ 64) :
    cprSputmem mem (some s) =
      if cprStrlen s.char mem.size ≠ 0 ∧ mem.put + cprStrlen s.char mem.size ≤ mem.size then
        ({ mem with
            data := mem.data.write mem.put (s.bytes.take (cprStrlen s.char mem.size))
            put := mem.put + cprStrlen s.char mem.size }, true)
      else (mem, false) := by
  have count := cprStrlen_eq_zero_iff s.char mem.size
  by_cases empty : s.char 0 = 0
  · rw [if_neg fun both => both.1 (count.mpr empty)]
    exact if_pos empty
  · have nonempty : s.bytes ≠ [] := by
      intro none
      apply empty
      rw [CString.char_eq_zero_iff, CString.length, none]
      exact Nat.le_refl 0
    have counted : cprStrlen s.char mem.size ≠ 0 := fun zero => empty (count.mp zero)
    rw [sputmem_exact below word nonempty, counted_length]
    simp only [counted, ne_eq, not_false_eq_true, true_and]
    rfl

end Copies

/-- The count is their bound, whatever the limit. -/
theorem callers (s : CString) : Callers s where
  strcpy mem m limit := cprStrcpy_stores mem m s limit
  strdup block limit := ⟨rfl, cprStrdup_stores block limit⟩
  stringCopy _ _ reads := stringCopy_stores reads
  pagerStrdup _ _ _ _ done := pagerStrdup_stores done
  sputmem _ below word := cprSputmem_stores below word
  putline := cprPutline_take s

/-- The count is the length or the limit, whichever is less, and no byte from the limit
on is read. -/
structure Minimum (s : CString) (limit : Nat) : Prop where
  count : cprStrlen s.char limit = min s.length limit
  reads : ∀ i ∈ cprStrlenAccesses s.char 0 limit, i < limit

/-- The first byte is read whatever the limit. -/
theorem first_read (s : CString) (limit : Nat) : 0 ∈ cprStrlenAccesses s.char 0 limit :=
  List.mem_cons_self

theorem minimum_iff (s : CString) (limit : Nat) : Minimum s limit ↔ 0 < limit := by
  constructor
  · intro least
    exact least.reads 0 (first_read s limit)
  · intro positive
    refine ⟨?_, fun i member => ?_⟩
    · rw [cprStrlen_char, Nat.max_eq_right positive]
    · rw [cprStrlenAccesses_eq (reads_zero_add.mpr s.reads), List.mem_range'_1] at member
      omega

/-- For every text, the bounded length is the minimum of the length and the limit, with
no byte read from the limit on and the count as the bound of the copies, exactly when the
limit is not zero. -/
theorem strlen_minimum_iff (s : CString) (limit : Nat) :
    Minimum s limit ∧ Callers s ↔ 0 < limit := by
  rw [and_iff_left (callers s), minimum_iff]

/-- With a limit of zero the only character of "a" is read, and counted. -/
theorem strlen_counts_at_zero :
    cprStrlen (CString.char ⟨[97], by simp⟩) 0 = 1 ∧
      cprStrlenAccesses (CString.char ⟨[97], by simp⟩) 0 0 = [0] ∧
      ¬ ∀ (s : CString) (limit : Nat), Minimum s limit ∧ Callers s := by
  refine ⟨by decide, by decide, fun claimed => ?_⟩
  have none_read := (claimed ⟨[97], by simp⟩ 0).1.reads 0 (by decide)
  cases none_read

end CprFormal.Strchar.Bound
