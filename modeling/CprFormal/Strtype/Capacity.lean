import CprFormal.Library.Transition
import CprFormal.Strtype.Model

/-!
# The smallest capacities of a counted string

`cpr_strlen` with a limit of zero counts one character.  In a string of capacity
one, such as that of `make_string("", max)`, every copy of a text that is not empty
therefore writes behind the capacity; `make_string` itself does so when the length
it has counted does not fit a `uint16_t`.  Nothing else does.
-/

namespace CprFormal.Strtype.Capacity

open CprFormal.Library.FlatMemory CprFormal.Library.Transition
open CprFormal.Strchar.Strlen
open CprFormal.Strtype.Model

/-- A call on a string. -/
inductive Call where
  | copy (val : Val)
  | append (val : Val)
  | clear
  | commit
  | trim (list : Val)
  | chop (list : Val)
  | tail (size : Nat)
  | head (size : Nat)

def step (str : StringT) : Call → StringT
  | .copy val => stringCopy str val
  | .append val => stringAppend str val
  | .clear => stringClear str
  | .commit => stringCommit str
  | .trim list => stringTrim str list
  | .chop list => stringChop str list
  | .tail size => stringTail str size
  | .head size => stringHead str size

/-- All writes so far and the count are within the capacity. -/
structure Safe (str : StringT) : Prop where
  written : InCapacity str
  used : str.used < str.size

/-- Where a string comes from. -/
inductive Origin where
  | newString (size : Nat)
  | makeString (val : CString) (limit : Nat)

/-- `new_string` is asked for a capacity that a `uint16_t` holds. -/
def Origin.Asked : Origin → Prop
  | newString size => 1 ≤ size ∧ size ≤ 65535
  | makeString _ _ => True

def Origin.make (block : Memory UInt8) : Origin → StringT
  | newString size => Model.newString size block
  | makeString val limit => Model.makeString val limit block

/-- `make_string` is given no text, or a text whose counted length leaves a capacity
of two or more when it is cut to a `uint16_t`. -/
def Origin.Fits : Origin → Prop
  | newString _ => True
  | makeString val limit =>
      val.length = 0 ∨ 2 ≤ (min val.length (max 1 limit) + 1) % 65536

/-- The byte is one of the list that a call on the string is given. -/
def Listed (str : StringT) (list : Val) (b : UInt8) : Prop :=
  b ∈ (list.chars str.mem str.size).bytes

/-- The call is given, or finds in the string, no text. -/
def NoText (str : StringT) : Call → Prop
  | .copy val => val.read str.mem 0 = 0
  | .append _ => True
  | .clear => True
  | .commit => str.mem 0 = 0
  | .trim list => str.mem 0 = 0 ∨ Listed str list (str.mem 0) ∧ str.mem 1 = 0
  | .chop list => str.mem 0 = 0 ∨ Listed str list (str.mem 0)
  | .tail _ => True
  | .head _ => str.mem 0 = 0

/-- The capacity is two or more, or there is no text. -/
def Allowed (str : StringT) (call : Call) : Prop := 2 ≤ str.size ∨ NoText str call

/-! ## Each call -/

section Calls

variable {str : StringT}

/-- With a capacity of one, one character is counted if there is one. -/
theorem strlen_below {size : Nat} (positive : 0 < size) (s : Nat → UInt8) :
    cprStrlen s (lessOne size) < size ↔ 2 ≤ size ∨ s 0 = 0 := by
  have bound := cprStrlen_le s (lessOne size)
  have zero := cprStrlen_eq_zero_iff s (lessOne size)
  rw [← zero]
  rw [lessOne_of_pos positive] at bound ⊢
  omega

/-- The count in a string of capacity one. -/
theorem strlen_one (s : Nat → UInt8) : cprStrlen s (lessOne 1) = if s 0 = 0 then 0 else 1 := by
  split
  · rename_i empty
    exact (cprStrlen_eq_zero_iff s _).mpr empty
  · rename_i some_text
    have bound : cprStrlen s (lessOne 1) ≤ 1 := cprStrlen_le s (lessOne 1)
    have positive := Nat.pos_of_ne_zero (mt (cprStrlen_eq_zero_iff s (lessOne 1)).mp some_text)
    exact Nat.le_antisymm bound positive

theorem copy_safe_iff (positive : 0 < str.size) (written : InCapacity str) (val : Val) :
    Safe (stringCopy str val) ↔ 2 ≤ str.size ∨ val.read str.mem 0 = 0 := by
  rw [← strlen_below positive]
  have done := stringCopy_done str val
  generalize cprStrlen (val.read str.mem) (lessOne str.size) = len at done ⊢
  constructor
  · intro safe
    have last := safe.written len done.last
    rwa [done.size] at last
  · intro below
    refine ⟨written.extend done.size done.written (fun i now => by omega), ?_⟩
    rw [done.size, done.used]
    exact Nat.lt_of_le_of_lt (Nat.mod_le _ _) below

theorem append_safe (safe : Safe str) (val : Val) : Safe (stringAppend str val) := by
  obtain ⟨written, used⟩ := safe
  unfold stringAppend
  by_cases full : (str.used : Int) ≥ (str.size : Int) - 1
  · rw [if_pos full]
    exact ⟨written, used⟩
  · rw [if_neg full]
    dsimp only
    have fits := cprStrlen_le (val.read str.mem) (str.size - str.used - 1)
    generalize cprStrlen (val.read str.mem) (str.size - str.used - 1) = len at fits ⊢
    have done := appendCounted_done str val (show len ≤ str.size - str.used - 1 by omega)
    refine ⟨written.extend done.size done.written (fun i now => by omega), ?_⟩
    rw [done.size, done.used]
    unfold uint16
    omega

theorem clear_safe (positive : 0 < str.size) (written : InCapacity str) :
    Safe (stringClear str) :=
  ⟨written.poke positive 0, positive⟩

theorem commit_safe_iff (positive : 0 < str.size) (small : str.size ≤ 65535)
    (written : InCapacity str) : Safe (stringCommit str) ↔ 2 ≤ str.size ∨ str.mem 0 = 0 := by
  refine Iff.trans ?_ (strlen_below positive str.mem)
  have bound := cprStrlen_le str.mem (lessOne str.size)
  rw [lessOne_of_pos positive] at bound
  have counted : (stringCommit str).used = cprStrlen str.mem (lessOne str.size) := by
    rw [lessOne_of_pos positive]
    unfold stringCommit
    rw [lessOne_of_pos positive]
    exact Nat.mod_eq_of_lt (by omega)
  constructor
  · intro safe
    rw [← counted]
    exact safe.used
  · intro below
    rw [← counted] at below
    exact ⟨written, below⟩

/-- The byte where `cpr_strtrim` stops in a string of capacity one. -/
theorem strtrim_one_iff {size : Nat} (one : size = 1) (mem : Memory UInt8) (list : CString) :
    mem (cprStrtrim mem list size) = 0 ↔ mem 0 = 0 ∨ mem 0 ∈ list.bytes ∧ mem 1 = 0 := by
  subst one
  unfold cprStrtrim
  split
  · rename_i none
    simp [List.isEmpty_iff.mp none]
  · rw [strlen_one mem]
    by_cases empty : mem 0 = 0
    · simp [trimLoop, empty]
    · by_cases inList : mem 0 ∈ list.bytes
      · simp [trimLoop, empty, strchr_of_ne_zero list empty, inList]
      · simp [trimLoop, empty, strchr_of_ne_zero list empty, inList]

theorem trim_safe_iff (safe : Safe str) (list : Val) :
    Safe (stringTrim str list) ↔ Allowed str (.trim list) := by
  have positive := Nat.lt_of_le_of_lt (Nat.zero_le _) safe.used
  refine (copy_safe_iff positive safe.written _).trans ?_
  by_cases large : 2 ≤ str.size
  · exact ⟨fun _ => .inl large, fun _ => .inl large⟩
  · have one : str.size = 1 := by omega
    have trimmed := strtrim_one_iff one str.mem (list.chars str.mem str.size)
    rw [Val.read, Nat.add_zero, trimmed]
    rfl

/-- The first byte of a chopped string of capacity one. -/
theorem strchop_one_iff (one : str.size = 1) (list : Val) :
    (cprStrchop str list str.size).mem 0 = 0 ↔ str.mem 0 = 0 ∨ Listed str list (str.mem 0) := by
  unfold cprStrchop Listed
  split
  · rename_i none
    simp [List.isEmpty_iff.mp none]
  · have counted : cprStrlen str.mem (lessOne str.size) = if str.mem 0 = 0 then 0 else 1 := by
      rw [one]
      exact strlen_one str.mem
    rw [counted]
    by_cases empty : str.mem 0 = 0
    · simp [chopLoop, empty]
    · rw [if_neg empty, chopLoop, strchr_of_ne_zero _ empty]
      by_cases inList : str.mem 0 ∈ (list.chars str.mem str.size).bytes
      · simp [chopLoop, inList]
      · simp [empty, inList]

theorem chop_safe_iff (safe : Safe str) (list : Val) :
    Safe (stringChop str list) ↔ Allowed str (.chop list) := by
  have positive := Nat.lt_of_le_of_lt (Nat.zero_le _) safe.used
  have frame := strchop_frame str list str.size
  have written : InCapacity (cprStrchop str list str.size) := by
    refine safe.written.extend frame.size frame.written (fun i now => ?_)
    have bound := cprStrlen_le str.mem (lessOne str.size)
    rw [lessOne_of_pos positive] at bound
    rw [lessOne_of_pos positive] at now
    omega
  refine (copy_safe_iff (by rwa [frame.size]) written _).trans ?_
  rw [frame.size]
  by_cases large : 2 ≤ str.size
  · exact ⟨fun _ => .inl large, fun _ => .inl large⟩
  · have chopped := strchop_one_iff (show str.size = 1 by omega) list
    rw [Val.read, Nat.add_zero, chopped]
    rfl

theorem tail_safe (safe : Safe str) (n : Nat) : Safe (stringTail str n) := by
  obtain ⟨written, used⟩ := safe
  unfold stringTail
  have below : (if n > str.used then str.used else n) ≤ str.used := by
    split
    · exact Nat.le_refl _
    · omega
  generalize (if n > str.used then str.used else n) = cut at below ⊢
  have inside := Nat.lt_of_le_of_lt below used
  exact ⟨written.poke inside 0, Nat.lt_of_le_of_lt (Nat.mod_le _ _) inside⟩

theorem head_safe_iff (safe : Safe str) (n : Nat) :
    Safe (stringHead str n) ↔ Allowed str (.head n) := by
  have used := safe.used
  refine (copy_safe_iff (by omega) safe.written _).trans ?_
  by_cases large : 2 ≤ str.size
  · exact ⟨fun _ => .inl large, fun _ => .inl large⟩
  · have none : str.used = 0 := by omega
    unfold Allowed NoText
    rw [none, Nat.zero_sub, Val.read, Nat.add_zero]

/-- A call keeps a string safe exactly when it is allowed. -/
theorem step_safe_iff (small : str.size ≤ 65535) (safe : Safe str) (call : Call) :
    Safe (step str call) ↔ Allowed str call := by
  have positive := Nat.lt_of_le_of_lt (Nat.zero_le _) safe.used
  cases call with
  | copy val => exact copy_safe_iff positive safe.written val
  | append val => exact ⟨fun _ => .inr trivial, fun _ => append_safe safe val⟩
  | clear => exact ⟨fun _ => .inr trivial, fun _ => clear_safe positive safe.written⟩
  | commit => exact commit_safe_iff positive small safe.written
  | trim list => exact trim_safe_iff safe list
  | chop list => exact chop_safe_iff safe list
  | tail n => exact ⟨fun _ => .inr trivial, fun _ => tail_safe safe n⟩
  | head n => exact head_safe_iff safe n

theorem step_size (str : StringT) (call : Call) : (step str call).size = str.size := by
  cases call with
  | copy val => exact (stringCopy_done str val).size
  | append val =>
      simp only [step, stringAppend]
      split
      · rfl
      · unfold appendCounted
        dsimp only
        split
        · rfl
        · rfl
  | clear => rfl
  | commit => rfl
  | trim list => exact (stringCopy_done str _).size
  | chop list => exact (stringCopy_done _ _).size.trans (strchop_frame str list str.size).size
  | tail n => rfl
  | head n => exact (stringCopy_done str _).size

end Calls

/-! ## Whole runs -/

theorem make_small (origin : Origin) (block : Memory UInt8) :
    (origin.make block).size ≤ 65535 := by
  cases origin with
  | newString size => exact Nat.le_of_lt_succ (Nat.mod_lt _ (by decide))
  | makeString val limit =>
      have copied := (stringCopy_done
        (Model.newString (cprStrlen val.char limit + 1) block) (.text val)).size
      exact Nat.le_trans (Nat.le_of_eq copied) (Nat.le_of_lt_succ (Nat.mod_lt _ (by decide)))

theorem make_safe_iff {origin : Origin} (asked : origin.Asked) (block : Memory UInt8) :
    Safe (origin.make block) ↔ origin.Fits := by
  cases origin with
  | newString size =>
      refine ⟨fun _ => trivial, fun _ => ⟨fun i member => absurd member List.not_mem_nil, ?_⟩⟩
      change 0 < size % 65536
      rw [Nat.mod_eq_of_lt (Nat.lt_succ_of_le asked.2)]
      exact asked.1
  | makeString val limit =>
      have counted := cprStrlen_char val limit
      have empty := val.char_eq_zero_iff 0
      change Safe (stringCopy (Model.newString (cprStrlen val.char limit + 1) block) (.text val)) ↔
        val.length = 0 ∨ 2 ≤ (min val.length (max 1 limit) + 1) % 65536
      rw [counted]
      let str := Model.newString (min val.length (max 1 limit) + 1) block
      have size : str.size = (min val.length (max 1 limit) + 1) % 65536 := rfl
      by_cases positive : 0 < str.size
      · have untouched : InCapacity str := fun i member => absurd member List.not_mem_nil
        have safe := copy_safe_iff positive untouched (.text val)
        rw [safe, size, Val.read, empty]
        omega
      · have unsafe_ : ¬ Safe (stringCopy str (.text val)) := by
          intro safe
          have used := safe.used
          rw [(stringCopy_done str (.text val)).size] at used
          omega
        refine ⟨fun safe => absurd safe unsafe_, fun fits => ?_⟩
        omega

/-- From every string that `new_string` or `make_string` returns and through every
sequence of calls, all writes and the count stay within the capacity exactly when
`make_string` got a text that fits and every call on a string of capacity one was
given, or found, no text. -/
theorem string_capacity_iff (origin : Origin) (asked : origin.Asked) (block : Memory UInt8)
    (calls : List Call) :
    Along step Safe (origin.make block) calls ↔
      origin.Fits ∧ Throughout step Allowed (origin.make block) calls := by
  have small := make_small origin block
  by_cases fits : origin.Fits
  · have safe := (make_safe_iff asked block).mpr fits
    have whole := along_iff_throughout (fun str : StringT => str.size ≤ 65535)
      (fun str call small _ _ => by rw [step_size]; exact small)
      (fun str call small safe => step_safe_iff small safe call) small safe calls
    exact ⟨fun along => ⟨fits, whole.mp along⟩, fun both => whole.mpr both.2⟩
  · refine ⟨fun along => absurd ?_ fits, fun both => absurd both.1 fits⟩
    exact (make_safe_iff asked block).mp along.here

/-- `make_string("", 16)` through calls that bring it no text. -/
theorem string_capacity_iff_empty :
    Along step Safe ((Origin.makeString .empty 16).make fun _ => 0)
      [.append (.text ⟨[97], by simp⟩), .head 3, .copy .null, .tail 1] :=
  (string_capacity_iff (.makeString .empty 16) trivial (fun _ => 0) _).mpr
    ⟨.inl rfl, .inr trivial, .inr rfl, .inr rfl, .inr trivial, trivial⟩

/-- Copying `"a"` to `make_string("", 16)` writes index 1 of a capacity of 1. -/
theorem string_copy_writes_behind :
    ¬ ∀ (origin : Origin), origin.Asked → ∀ (block : Memory UInt8) (calls : List Call),
      Along step Safe (origin.make block) calls := by
  intro claimed
  have along := claimed (.makeString .empty 16) trivial (fun _ => 0)
    [.copy (.text ⟨[97], by simp⟩)]
  have last : Safe (stringCopy (Model.makeString .empty 16 fun _ => 0)
    (.text ⟨[97], by simp⟩)) := along.2
  exact absurd (last.written 1 (by decide)) (by decide)

end CprFormal.Strtype.Capacity
