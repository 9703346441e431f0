import CprFormal.Strtype.Model

/-!
# Lengths that a `uint16_t` holds

`string_printf` takes the length that the whole output would have for the length of what
was stored, and `make_string` takes the length of its argument for a capacity.  Both
are right exactly as long as nothing is cut.
-/

namespace CprFormal.Strtype.Narrowing

open CprFormal.Library.FlatMemory
open CprFormal.Strchar.Strlen
open CprFormal.Strtype.Model

/-! ## Printing and making -/

/-- The outcome of a `vsnprintf`: a negative value, behind which some bytes may have been
stored, or a text whose length it returns. -/
inductive Formatted where
  | error (code : Nat) (stored : List UInt8)
  | text (bytes : List UInt8)

namespace Formatted

/-- The value that is returned. -/
def out : Formatted → Int
  | error code _ => Int.negSucc code
  | text bytes => bytes.length

/-- The bytes that are stored for a capacity of `size`. -/
def stores (result : Formatted) (size : Nat) : List UInt8 :=
  if size = 0 then []
  else
    match result with
    | error _ stored => stored.take (size - 1) ++ [0]
    | text bytes => bytes.take (size - 1) ++ [0]

/-- The text that is in the string afterwards; there is none behind an error. -/
def stored (result : Formatted) (size : Nat) : List UInt8 :=
  match result with
  | error _ _ => []
  | text bytes => bytes.take (size - 1)

end Formatted

/-- `vsnprintf(mem, str->size, format, args)` -/
def vsnprintf (str : StringT) (result : Formatted) : StringT :=
  { str with
    mem := str.mem.write 0 (result.stores str.size)
    written := str.written ++ List.range (result.stores str.size).length }

/-- `string_printf` with the outcome of its `vsnprintf`. -/
def stringPrintf (str : StringT) (result : Formatted) : StringT × Int :=
  let printed := vsnprintf str result
  let out := result.out
  if out < 1 then (stringClear printed, out)
  else ({ printed with used := uint16 out.toNat }.poke out.toNat 0, out)

/-- The indices that a call has written. -/
def newlyWritten (str after : StringT) : List Nat := after.written.drop str.written.length

/-- A string that holds what was stored, with the terminator behind it, and was written
within its capacity. -/
structure Printed (str : StringT) (result : Formatted) (after : StringT) : Prop where
  used : after.used < after.size
  stop : after.mem after.used = 0
  text : after.mem.slice 0 after.used = result.stored str.size
  length : after.used = (result.stored str.size).length
  inside : ∀ i ∈ newlyWritten str after, i < str.size

section Printing

variable {str : StringT}

theorem stores_length_le (result : Formatted) (size : Nat) :
    (result.stores size).length ≤ size := by
  unfold Formatted.stores
  split
  · exact Nat.zero_le _
  · cases result with
    | error code stored =>
        rw [List.length_append, List.length_take, List.length_singleton]
        omega
    | text bytes =>
        rw [List.length_append, List.length_take, List.length_singleton]
        omega

/-- What is printed and then changed at one index is written at that index besides. -/
theorem newlyWritten_poke (result : Formatted) (used i : Nat) (b : UInt8) :
    newlyWritten str ({ vsnprintf str result with used := used }.poke i b) =
      List.range (result.stores str.size).length ++ [i] := by
  change (str.written ++ List.range (result.stores str.size).length ++ [i]).drop _ = _
  rw [List.append_assoc, List.drop_left]

theorem printed_inside (result : Formatted) {used i : Nat} (inside : i < str.size) (b : UInt8) :
    ∀ j ∈ newlyWritten str ({ vsnprintf str result with used := used }.poke i b), j < str.size := by
  intro j member
  rw [newlyWritten_poke] at member
  rcases List.mem_append.mp member with stored | last
  · exact Nat.lt_of_lt_of_le (List.mem_range.mp stored) (stores_length_le result str.size)
  · rw [List.mem_singleton.mp last]
    exact inside

/-- A string that is cleared after printing holds no text. -/
theorem printed_clear (positive : 1 ≤ str.size) {result : Formatted}
    (none : result.stored str.size = []) : Printed str result (stringClear (vsnprintf str result)) where
  used := positive
  stop := (vsnprintf str result).mem.set_same 0 0
  text := by
    rw [none]
    rfl
  length := by
    rw [none]
    rfl
  inside := printed_inside result positive 0

/-- An output shorter than the capacity is stored whole. -/
theorem printed_text (small : str.size ≤ 65535) {bytes : List UInt8}
    (fits : bytes.length < str.size) :
    Printed str (.text bytes)
      ({ vsnprintf str (.text bytes) with used := uint16 bytes.length }.poke bytes.length 0) := by
  have used : uint16 bytes.length = bytes.length := Nat.mod_eq_of_lt (by omega)
  have whole : (Formatted.text bytes).stored str.size = bytes :=
    List.take_of_length_le (by omega)
  have stores : (Formatted.text bytes).stores str.size = bytes ++ [0] := by
    unfold Formatted.stores
    rw [if_neg (by omega)]
    exact congrArg (· ++ [0]) whole
  rw [used]
  refine ⟨fits, Memory.set_same _ _ _, ?_, ?_, printed_inside _ fits 0⟩
  · rw [whole]
    change ((str.mem.write 0 ((Formatted.text bytes).stores str.size)).set bytes.length 0).slice 0
      bytes.length = bytes
    rw [stores, Memory.slice_set_outside _ _ (.inr (Nat.le_of_eq (Nat.zero_add _))),
      Memory.slice_write_take _ _ _ (by simp), List.take_left]
  · rw [whole]
    rfl

end Printing

/-- A string is well formed after `string_printf` exactly when the value of `vsnprintf` is
less than its capacity. -/
theorem string_printf_iff (str : StringT) (positive : 1 ≤ str.size) (small : str.size ≤ 65535)
    (result : Formatted) :
    Printed str result (stringPrintf str result).1 ↔ result.out < str.size := by
  cases result with
  | error code stored =>
      have negative : (Formatted.error code stored).out < 0 := Int.negSucc_lt_zero code
      have cleared : stringPrintf str (.error code stored) =
          (stringClear (vsnprintf str (.error code stored)), Int.negSucc code) :=
        if_pos (show Int.negSucc code < 1 by omega)
      rw [cleared]
      exact ⟨fun _ => by omega, fun _ => printed_clear positive rfl⟩
  | text bytes =>
      have out : (Formatted.text bytes).out = (bytes.length : Int) := rfl
      rw [out, Int.ofNat_lt]
      by_cases empty : bytes.length = 0
      · have cleared : stringPrintf str (.text bytes) =
            (stringClear (vsnprintf str (.text bytes)), (bytes.length : Int)) :=
          if_pos (show (bytes.length : Int) < 1 by omega)
        have none : bytes = [] := List.length_eq_zero_iff.mp empty
        rw [cleared]
        refine ⟨fun _ => by omega, fun _ => printed_clear positive ?_⟩
        rw [none]
        exact List.take_nil
      · have kept : stringPrintf str (.text bytes) =
            ({ vsnprintf str (.text bytes) with used := uint16 bytes.length }.poke bytes.length 0,
              (bytes.length : Int)) :=
          if_neg (show ¬ (bytes.length : Int) < 1 by omega)
        rw [kept]
        constructor
        · intro printed
          refine printed.inside bytes.length ?_
          rw [newlyWritten_poke]
          exact List.mem_append_right _ (List.mem_singleton_self _)
        · exact printed_text small

/-- A string of eight bytes over clear memory. -/
def eightBytes : StringT := ⟨8, 0, fun _ => 0, []⟩

/-- Seven characters fit into eight bytes. -/
theorem string_printf_fits :
    Printed eightBytes (.text (List.replicate 7 120))
      (stringPrintf eightBytes (.text (List.replicate 7 120))).1 :=
  (string_printf_iff eightBytes (by decide) (by decide) _).mpr (by decide)

/-- Of eight characters the terminator is stored behind the eight bytes. -/
theorem string_printf_behind :
    8 ∈ (stringPrintf eightBytes (.text (List.replicate 8 120))).1.written ∧
      (stringPrintf eightBytes (.text (List.replicate 8 120))).1.used = 8 ∧
      ¬ Printed eightBytes (.text (List.replicate 8 120))
        (stringPrintf eightBytes (.text (List.replicate 8 120))).1 := by
  refine ⟨by decide, by decide, fun printed => ?_⟩
  exact absurd printed.used (by decide)

/-- A string that holds the first `limit` bytes of the value and has the capacity for
just them and their terminator. -/
structure Constructed (val : CString) (limit : Nat) (str : StringT) : Prop where
  bytes : Reads str.mem (val.bytes.take limit)
  count : str.used = min val.length limit
  size : str.size = min val.length limit + 1

/-- A value whose length fits is copied whole. -/
theorem makeString_constructed (val : CString) {limit : Nat} (positive : 1 ≤ limit)
    (block : Memory UInt8) (small : min val.length limit < 65535) :
    Constructed val limit (makeString val limit block) := by
  have counted : cprStrlen val.char limit = min val.length limit := by
    rw [cprStrlen_char, Nat.max_eq_right positive]
  have capacity : uint16 (min val.length limit + 1) = min val.length limit + 1 :=
    Nat.mod_eq_of_lt (by omega)
  have done := stringCopy_done (newString (min val.length limit + 1) block) (.text val)
  have again : cprStrlen ((Val.text val).read block) (min val.length limit) =
      min val.length limit := by
    change cprStrlen val.char (min val.length limit) = _
    rw [cprStrlen_char]
    omega
  have less : lessOne (newString (min val.length limit + 1) block).size = min val.length limit := by
    change lessOne (uint16 (min val.length limit + 1)) = _
    rw [capacity, lessOne_of_pos (Nat.succ_pos _)]
    rfl
  rw [less] at done
  change CopyDone _ (cprStrlen ((Val.text val).read block) (min val.length limit)) _ _ at done
  rw [again] at done
  have length : (val.bytes.take limit).length = min val.length limit := by
    rw [List.length_take, Nat.min_comm]
    rfl
  unfold makeString
  dsimp only
  rw [counted]
  refine ⟨val.reads.take (fun i inside => done.text i (by rwa [length] at inside)) ?_, ?_, ?_⟩
  · rw [length]
    exact done.stop
  · rw [done.used]
    exact Nat.mod_eq_of_lt (by omega)
  · rw [done.size]
    exact capacity

/-- `make_string` holds its whole value exactly when the value, cut at the limit, is
shorter than 65535 bytes. -/
theorem make_string_iff (val : CString) {limit : Nat} (positive : 1 ≤ limit)
    (block : Memory UInt8) :
    Constructed val limit (makeString val limit block) ↔ min val.length limit < 65535 := by
  constructor
  · intro constructed
    have size := constructed.size
    unfold makeString at size
    dsimp only at size
    rw [(stringCopy_done _ _).size] at size
    have small : (newString (cprStrlen val.char limit + 1) block).size < 65536 :=
      Nat.mod_lt _ (by decide)
    omega
  · exact makeString_constructed val positive block

/-- `make_string("ab", 8)` -/
theorem make_string_two :
    Constructed ⟨[97, 98], by simp⟩ 8 (makeString ⟨[97, 98], by simp⟩ 8 fun _ => 1) :=
  (make_string_iff _ (by decide) _).mpr (by decide)

/-- A value of 65535 bytes gives a string of capacity zero. -/
theorem make_string_long :
    ∃ val : CString, val.length = 65535 ∧
      (makeString val 65535 fun _ => 1).size = 0 ∧
      ¬ Constructed val 65535 (makeString val 65535 fun _ => 1) := by
  have nonNul : ∀ b ∈ List.replicate 65535 (120 : UInt8), b ≠ 0 := by
    intro b member
    rw [List.eq_of_mem_replicate member]
    decide
  have length : CString.length ⟨List.replicate 65535 120, nonNul⟩ = 65535 := List.length_replicate
  have size : (makeString ⟨List.replicate 65535 120, nonNul⟩ 65535 fun _ => 1).size = 0 := by
    unfold makeString
    dsimp only
    rw [(stringCopy_done _ _).size, cprStrlen_char, length]
    rfl
  refine ⟨_, length, size, fun constructed => ?_⟩
  have whole := constructed.size
  rw [size] at whole
  exact absurd whole (Nat.succ_ne_zero _).symm

end CprFormal.Strtype.Narrowing
