import CprFormal.Library.FlatMemory
import CprFormal.Library.SignedInt
import CprFormal.Library.SizeT

/-!
# The portable `getline` of `system.c`

The stream is the list of the bytes that are left.  A block that `malloc` or `realloc` can
give has fewer than `2 ^ 63` bytes, so the only sum that could wrap around is `new_size`.
A byte stored where `*size` or the block itself does not reach has no result.
-/

namespace CprFormal.System.Getline

open CprFormal.Library.FlatMemory CprFormal.Library.SignedInt CprFormal.Library.SizeT

/-- An allocated block. -/
structure Block where
  mem : Memory UInt8
  size : Nat
  small : size < 2 ^ 63

/-- What an allocation of a size answers: `NULL`, or what the new memory holds. -/
abbrev Allocator : Type := Nat → Option (Memory UInt8)

/-- `malloc` -/
def malloc (alloc : Allocator) (n : Nat) : Option Block :=
  if small : n < 2 ^ 63 then (alloc n).map fun fresh => ⟨fresh, n, small⟩ else none

/-- `realloc` keeps the bytes that both blocks have. -/
def realloc (alloc : Allocator) (lp : Block) (n : Nat) : Option Block :=
  (malloc alloc n).map fun block =>
    { block with mem := block.mem.write 0 (lp.mem.slice 0 (min lp.size n)) }

/-- `(*lp)[i] = b` -/
def store (lp : Block) (size i : Nat) (b : UInt8) : Option Block :=
  if i < size ∧ i < lp.size then some { lp with mem := lp.mem.set i b } else none

/-- `*lp`, `*size` and the stream afterwards, and what is returned. -/
structure Outcome where
  lp : Option Block
  size : Nat
  rest : List UInt8
  result : Int

/-- `new_size` -/
def newSize (size : Nat) : Nat :=
  let new_size := wrap (size + size >>> 2)
  if new_size < 128 then 128 else new_size

/-- `if (pos + 1 >= *size) ...` -/
def grow (alloc : Allocator) (lp : Block) (size pos : Nat) : Option (Block × Nat) :=
  if wrap (pos + 1) ≥ size then
    (realloc alloc lp (newSize size)).map fun block => (block, newSize size)
  else some (lp, size)

/-- `(*lp)[pos] = '\0'; return (ssize_t)(pos);` -/
def finish (lp : Block) (size pos : Nat) (rest : List UInt8) : Option Outcome := do
  let lp ← store lp size pos 0
  some ⟨some lp, size, rest, convert 64 pos⟩

/-- `while (c != EOF)` with `c` just read; the stream behind it is `rest`. -/
def getlineLoop (alloc : Allocator) (lp : Block) (size pos : Nat) (c : UInt8)
    (rest : List UInt8) : Option Outcome :=
  match grow alloc lp size pos with
  | none => some ⟨some lp, size, rest, -1⟩
  | some (lp, size) => do
      let lp ← store lp size pos c
      if c = 10 then finish lp size (pos + 1) rest
      else
        match rest with
        | [] => finish lp size (pos + 1) []
        | c :: rest => getlineLoop alloc lp size (pos + 1) c rest

/-- `if (*lp == NULL) ...` -/
def firstBlock (alloc : Allocator) (lp : Option Block) (size : Nat) : Option (Block × Nat) :=
  match lp with
  | none => (malloc alloc 128).map fun block => (block, 128)
  | some lp => some (lp, size)

/-- `getline` with none of its arguments `NULL`. -/
def getline (alloc : Allocator) (lp : Option Block) (size : Nat) (stream : List UInt8) :
    Option Outcome :=
  match stream with
  | [] => some ⟨lp, size, [], -1⟩
  | c :: rest =>
      match firstBlock alloc lp size with
      | none => some ⟨lp, size, rest, -1⟩
      | some (lp, size) => getlineLoop alloc lp size 0 c rest

/-- The bytes up to and including the first newline, or all of them. -/
def lineOf (stream : List UInt8) : List UInt8 :=
  stream.takeWhile (· != 10) ++ (stream.dropWhile (· != 10)).take 1

/-- The bytes behind the first newline. -/
def behindLine (stream : List UInt8) : List UInt8 := (stream.dropWhile (· != 10)).drop 1

theorem lineOf_append_behindLine (stream : List UInt8) :
    lineOf stream ++ behindLine stream = stream := by
  unfold lineOf behindLine
  rw [List.append_assoc, List.take_append_drop, List.takeWhile_append_dropWhile]

theorem line_newline (rest : List UInt8) :
    lineOf (10 :: rest) = [10] ∧ behindLine (10 :: rest) = rest := ⟨rfl, rfl⟩

theorem line_cons {c : UInt8} (other : c ≠ 10) (rest : List UInt8) :
    lineOf (c :: rest) = c :: lineOf rest ∧ behindLine (c :: rest) = behindLine rest := by
  have goes_on : (c != 10) = true := bne_iff_ne.mpr other
  unfold lineOf behindLine
  simp only [List.takeWhile_cons, List.dropWhile_cons, goes_on, if_true, List.cons_append,
    true_and]

/-- The line goes on as long as a byte is left. -/
theorem length_lt_of_line {line rest : List UInt8} {c : UInt8} {len : Nat}
    (whole : (line ++ lineOf (c :: rest)).length = len) : line.length < len := by
  have some_byte : 0 < (lineOf (c :: rest)).length := by
    by_cases newline : c = 10
    · rw [newline, (line_newline rest).1]
      exact Nat.one_pos
    · rw [(line_cons newline rest).1]
      exact Nat.succ_pos _
  rw [List.length_append] at whole
  omega

theorem malloc_size {alloc : Allocator} {n : Nat} {block : Block}
    (done : malloc alloc n = some block) : block.size = n := by
  unfold malloc at done
  split at done
  · obtain ⟨fresh, -, rfl⟩ := Option.map_eq_some_iff.mp done
    rfl
  · cases done

/-- A larger block begins with the bytes of the smaller one. -/
theorem realloc_larger {alloc : Allocator} {lp : Block} {n : Nat} (larger : lp.size ≤ n)
    (succeeds : (malloc alloc n).isSome) :
    ∃ block, realloc alloc lp n = some block ∧ block.size = n ∧
      ∀ k ≤ lp.size, block.mem.slice 0 k = lp.mem.slice 0 k := by
  obtain ⟨block, done⟩ := Option.isSome_iff_exists.mp succeeds
  have size := malloc_size done
  unfold realloc
  rw [done, Option.map_some, Nat.min_eq_left larger]
  refine ⟨_, rfl, size, fun k inside => ?_⟩
  have kept := block.mem.slice_write_take 0 (lp.mem.slice 0 lp.size)
    (show k ≤ (lp.mem.slice 0 lp.size).length by rwa [Memory.slice_length])
  rwa [lp.mem.slice_take 0 inside] at kept

theorem store_eq {lp : Block} {i : Nat} (inside : i < lp.size) (b : UInt8) :
    store lp lp.size i b = some { lp with mem := lp.mem.set i b } :=
  if_pos ⟨inside, inside⟩

/-- The allocations that a line of `len` bytes can call for succeed. -/
def Succeeding (alloc : Allocator) (len : Nat) : Prop :=
  ∀ n, n ≤ 128 ∨ 4 * n ≤ 5 * len → (malloc alloc n).isSome

/-- Before a byte is stored: the bytes of the line that have been read are in the block,
and the next one follows them. -/
structure Reading (lp : Block) (line : List UInt8) : Prop where
  bytes : lp.mem.slice 0 line.length = line
  room : line.length = 0 ∨ line.length < lp.size

theorem newSize_eq {size : Nat} (small : size < 2 ^ 63) :
    newSize size = max 128 (size + size / 4) := by
  have quarter : size >>> 2 = size / 4 := Nat.shiftRight_eq_div_pow _ 2
  have sum : wrap (size + size / 4) = size + size / 4 := wrap_of_lt (by omega)
  unfold newSize
  rw [quarter, sum]
  dsimp only
  split
  · omega
  · omega

/-- After `grow` there is room for the next byte and for the terminator. -/
theorem grow_room {alloc : Allocator} {len : Nat} (succeeding : Succeeding alloc len)
    {lp : Block} {line : List UInt8} (reading : Reading lp line) (short : line.length < len) :
    ∃ lp', grow alloc lp lp.size line.length = some (lp', lp'.size) ∧
      line.length + 1 < lp'.size ∧ lp'.mem.slice 0 line.length = line := by
  have small := lp.small
  have room := reading.room
  have next : wrap (line.length + 1) = line.length + 1 := wrap_of_lt (by omega)
  have size := newSize_eq small
  unfold grow
  rw [next]
  split
  · rename_i full
    have allowed : newSize lp.size ≤ 128 ∨ 4 * newSize lp.size ≤ 5 * len := by omega
    obtain ⟨block, done, new, kept⟩ :=
      realloc_larger (show lp.size ≤ newSize lp.size by omega) (succeeding _ allowed)
    rw [done, Option.map_some, ← new]
    refine ⟨block, rfl, by omega, (kept _ ?_).trans reading.bytes⟩
    omega
  · rename_i enough
    exact ⟨lp, rfl, by omega, reading.bytes⟩

/-- The byte at the end of a block's line. -/
theorem slice_set_append {mem : Memory UInt8} {line : List UInt8}
    (bytes : mem.slice 0 line.length = line) (c : UInt8) :
    (mem.set line.length c).slice 0 (line ++ [c]).length = line ++ [c] := by
  rw [List.length_append, List.length_singleton, Memory.slice_append,
    mem.slice_set_outside c (.inr (by omega)), bytes, Nat.zero_add, Memory.slice_succ,
    Memory.set_same, Memory.slice_zero]

/-! ## Whole lines -/

/-- The line is returned with a terminator behind it, in a block of `*size` bytes. -/
structure Returned (line rest : List UInt8) (outcome : Outcome) : Prop where
  result : outcome.result = line.length
  rest : outcome.rest = rest
  stored : ∃ lp, outcome.lp = some lp ∧ outcome.size = lp.size ∧ line.length < lp.size ∧
    lp.mem.slice 0 line.length = line ∧ lp.mem line.length = 0

theorem finish_returned {lp : Block} {line : List UInt8} (room : line.length < lp.size)
    (bytes : lp.mem.slice 0 line.length = line) (rest : List UInt8) :
    ∃ outcome, finish lp lp.size line.length rest = some outcome ∧
      Returned line rest outcome := by
  have small := lp.small
  unfold finish
  rw [store_eq room, Option.bind_eq_bind, Option.bind_some]
  have pos : convert 64 (line.length : Int) = line.length :=
    convert_of_held (by decide) (by omega) (by omega)
  have kept := lp.mem.slice_set_outside (a := 0) (b := line.length) (n := line.length) 0
    (.inr (by omega))
  rw [pos]
  refine ⟨_, rfl, rfl, rfl, ?_⟩
  exact ⟨_, rfl, rfl, room, kept.trans bytes, Memory.set_same _ _ _⟩

/-- One pass of the loop: the byte is behind the line, with room for a terminator. -/
theorem getlineLoop_step {alloc : Allocator} {len : Nat} (succeeding : Succeeding alloc len)
    {lp : Block} {line : List UInt8} (reading : Reading lp line) (short : line.length < len)
    (c : UInt8) (rest : List UInt8) :
    ∃ lp', lp'.mem.slice 0 (line ++ [c]).length = line ++ [c] ∧
      (line ++ [c]).length < lp'.size ∧
      getlineLoop alloc lp lp.size line.length c rest =
        if c = 10 then finish lp' lp'.size (line ++ [c]).length rest
        else
          match rest with
          | [] => finish lp' lp'.size (line ++ [c]).length []
          | d :: rest => getlineLoop alloc lp' lp'.size (line ++ [c]).length d rest := by
  obtain ⟨grown, done, room, bytes⟩ := grow_room succeeding reading short
  refine ⟨{ grown with mem := grown.mem.set line.length c }, slice_set_append bytes c, ?_, ?_⟩
  · rw [List.length_append]
    exact room
  · rw [getlineLoop.eq_def, done]
    dsimp only
    rw [store_eq (by omega), Option.bind_eq_bind, Option.bind_some, List.length_append]
    rfl

/-- The loop appends the rest of the line to what has been read. -/
theorem getlineLoop_returned {alloc : Allocator} {len : Nat} (succeeding : Succeeding alloc len)
    (rest : List UInt8) {lp : Block} {line : List UInt8} {c : UInt8}
    (reading : Reading lp line) (whole : (line ++ lineOf (c :: rest)).length = len) :
    ∃ outcome, getlineLoop alloc lp lp.size line.length c rest = some outcome ∧
      Returned (line ++ lineOf (c :: rest)) (behindLine (c :: rest)) outcome := by
  induction rest generalizing lp line c with
  | nil =>
      have short := length_lt_of_line whole
      obtain ⟨lp', bytes, room, step⟩ := getlineLoop_step succeeding reading short c []
      have last : lineOf [c] = [c] ∧ behindLine [c] = [] := by
        by_cases newline : c = 10
        · rw [newline]
          exact line_newline []
        · obtain ⟨line_, behind⟩ := line_cons newline []
          exact ⟨line_, behind⟩
      rw [step, last.1, last.2, ite_self]
      exact finish_returned room bytes []
  | cons d rest ih =>
      have short := length_lt_of_line whole
      obtain ⟨lp', bytes, room, step⟩ := getlineLoop_step succeeding reading short c (d :: rest)
      rw [step]
      by_cases newline : c = 10
      · subst newline
        rw [if_pos rfl, (line_newline _).1, (line_newline _).2]
        exact finish_returned room bytes (d :: rest)
      · obtain ⟨line_, behind⟩ := line_cons newline (d :: rest)
        rw [line_, List.append_cons] at whole
        rw [if_neg newline, line_, behind, List.append_cons line c (lineOf (d :: rest))]
        exact ih ⟨bytes, .inr room⟩ whole

/-- A first block of `*size` bytes is there, or is made. -/
theorem firstBlock_eq {alloc : Allocator} {lp : Option Block} {size len : Nat}
    (held : ∀ block ∈ lp, size = block.size) (succeeding : Succeeding alloc len) :
    ∃ block, firstBlock alloc lp size = some (block, block.size) := by
  cases lp with
  | none =>
      obtain ⟨block, done⟩ := Option.isSome_iff_exists.mp (succeeding 128 (.inl (Nat.le_refl _)))
      refine ⟨block, ?_⟩
      unfold firstBlock
      rw [done, Option.map_some, malloc_size done]
  | some block =>
      refine ⟨block, ?_⟩
      rw [held block rfl]
      rfl

/-- With a byte left in the stream a whole line is returned. -/
theorem getline_returned {alloc : Allocator} {lp : Option Block} {size : Nat} {c : UInt8}
    {rest : List UInt8} (held : ∀ block ∈ lp, size = block.size)
    (succeeding : Succeeding alloc (lineOf (c :: rest)).length) :
    ∃ outcome, getline alloc lp size (c :: rest) = some outcome ∧
      Returned (lineOf (c :: rest)) (behindLine (c :: rest)) outcome := by
  obtain ⟨block, first⟩ := firstBlock_eq held succeeding
  have started : Reading block [] := ⟨rfl, .inl rfl⟩
  obtain ⟨outcome, ran, returned⟩ := getlineLoop_returned succeeding rest started rfl
  refine ⟨outcome, ?_, returned⟩
  unfold getline
  dsimp only
  rw [first]
  exact ran

/-- At the end of the stream nothing happens and -1 is returned; otherwise one whole line
is consumed, stored and returned. -/
theorem getline_whole_line {alloc : Allocator} {lp : Option Block} {size : Nat}
    {stream : List UInt8} (held : ∀ block ∈ lp, size = block.size)
    (succeeding : Succeeding alloc (lineOf stream).length) :
    ∃ outcome, getline alloc lp size stream = some outcome ∧
      if stream = [] then outcome = ⟨lp, size, [], -1⟩
      else Returned (lineOf stream) (behindLine stream) outcome := by
  cases stream with
  | nil => exact ⟨_, rfl, rfl⟩
  | cons c rest => exact getline_returned held succeeding

/-- The first of two lines, into a block of two bytes that has to grow. -/
theorem getline_whole_line_first :
    ∃ outcome, getline (fun _ => some fun _ => 0) (some ⟨fun _ => 7, 2, by decide⟩) 2
        [97, 98, 99, 10, 100] = some outcome ∧
      Returned [97, 98, 99, 10] [100] outcome := by
  have succeeding : Succeeding (fun _ => some fun _ => 0) 4 := by
    intro n asked
    have small : n < 2 ^ 63 := by omega
    unfold malloc
    rw [dif_pos small]
    rfl
  have held : ∀ block ∈ some (⟨fun _ => 7, 2, by decide⟩ : Block), 2 = block.size := by
    intro block member
    rw [← Option.some.inj member]
  exact @getline_whole_line (fun _ => some fun _ => 0) (some ⟨fun _ => 7, 2, by decide⟩) 2
    [97, 98, 99, 10, 100] held succeeding

end CprFormal.System.Getline
