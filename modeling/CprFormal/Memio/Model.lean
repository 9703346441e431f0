import CprFormal.Bufio.Model
import CprFormal.Library.SizeT

/-!
# The memory cursors of `memio.c`

A `memio_t` reads and writes a fixed block through the cursors `get` and `put`.
A block has fewer than `2^63` bytes and `cpr_lgetmem` looks at most sixteen bytes
past a position inside it, so its sums do not wrap.  The sums and differences with
a length that the caller chooses are those of `size_t`.
-/

namespace CprFormal.Memio.Model

open CprFormal.Library CprFormal.Library.FlatMemory CprFormal.Library.Search
open CprFormal.Strchar.Strlen
open CprFormal.Bufio.Model

/-- The cursors of a `memio_t` and the bytes at `data`. -/
structure MemioT where
  data : Memory UInt8
  get : Nat
  put : Nat
  size : Nat
  alloc : Bool

/-- `cpr_initmem` -/
def cprInitmem (from_ : Memory UInt8) (size : Nat) : MemioT :=
  ⟨from_, 0, 0, size, false⟩

/-- `cpr_resetmem` -/
def cprResetmem (mem : MemioT) : MemioT := { mem with get := 0, put := 0 }

/-- `offsetof(memio_t, buf)`: a pointer, three `size_t` and a `bool`. -/
def offsetofBuf : Nat := 33

/-- `sizeof(memio_t)`, padded to eight. -/
def sizeofMemio : Nat := 40

/-- `cpr_makemem`; `malloc` gives a block with any bytes, or none. -/
def cprMakemem (size : UInt64) (malloc : Nat → Option (Memory UInt8)) : Option MemioT :=
  match malloc (SizeT.wrap (size.toNat + sizeofMemio)) with
  | none => none
  | some block => some ⟨fun i => block (offsetofBuf + i), 0, 0, size.toNat, true⟩

/-- `cpr_cgetmem` -/
def cprCgetmem (mem : MemioT) : MemioT × UInt8 :=
  if mem.get ≥ mem.size then (mem, 0)
  else ({ mem with get := mem.get + 1 }, mem.data mem.get)

/-- `cpr_cputmem` -/
def cprCputmem (mem : MemioT) (ch : UInt8) : MemioT × Bool :=
  if mem.put ≥ mem.size then (mem, false)
  else ({ mem with data := mem.data.set mem.put ch, put := mem.put + 1 }, true)

/-- `cpr_memcpy(&data[dst], dst_size, src, src_size)`; the null source is `none`, and
so is the answer `false`. -/
def cprMemcpy (data : Memory UInt8) (dst dstSize : Nat) (src : Option (Memory UInt8))
    (srcSize : Nat) : Option (Memory UInt8) :=
  match src with
  | none => none
  | some src => if srcSize > dstSize then none else some (data.write dst (src.slice 0 srcSize))

/-- `cpr_xputmem` -/
def cprXputmem (mem : MemioT) (from_ : Option (Memory UInt8)) (size : UInt64) :
    MemioT × Bool :=
  if SizeT.sub mem.size mem.put < size.toNat then (mem, false)
  else
    match cprMemcpy mem.data mem.put (SizeT.sub mem.size mem.put) from_ size.toNat with
    | none => (mem, false)
    | some data => ({ mem with data := data, put := SizeT.wrap (mem.put + size.toNat) }, true)

/-- `cpr_sputmem`; the length is counted up to the size of the block. -/
def cprSputmem (mem : MemioT) (text : Option CString) : MemioT × Bool :=
  match text with
  | none => (mem, false)
  | some text =>
      if text.char 0 = 0 then (mem, false)
      else cprXputmem mem (some text.char) (UInt64.ofNat (cprStrlen text.char mem.size))

/-- `cpr_xgetmem`; the returned pointer is an index into `data`. -/
def cprXgetmem (mem : MemioT) (size : UInt64) : MemioT × Option Nat :=
  if SizeT.wrap (mem.get + size.toNat) > mem.size then (mem, none)
  else ({ mem with get := SizeT.wrap (mem.get + size.toNat) }, some mem.get)

/-- The unread bytes `data[get..size)`. -/
def MemioT.unread (mem : MemioT) : List UInt8 := mem.data.slice mem.get (mem.size - mem.get)

/-- What `cpr_lgetmem` leaves and gives back: the index of the returned pointer
and the distance from there to the delimiter, or `NULL`. -/
structure Line where
  mem : MemioT
  result : Option (Nat × Nat)

/-- `cpr_lgetmem`; `outlen` tells whether the length is asked for. -/
def cprLgetmem (mem : MemioT) (outlen : Bool) (delim : Option Delim) : Line :=
  if mem.get ≥ mem.size then ⟨mem, none⟩
  else
    let d := delimBytes (delimText delim)
    match searchUp (matchesAt mem.data 0 d) (mem.size + 1 - (mem.get + d.length)) mem.get with
    | (i, true) =>
        let len := i - mem.get
        if outlen then ⟨{ mem with get := i + d.length }, some (mem.get, len)⟩
        else if i < mem.size then
          ⟨{ mem with data := mem.data.set i 0, get := i + d.length }, some (mem.get, len)⟩
        else ⟨mem, none⟩
    | (_, false) => ⟨mem, none⟩

/-- A line that `cpr_lgetmem` has found: it ends at the first delimiter behind `get`,
`get` moves past both, and without `outlen` a NUL is stored at the end of the line. -/
structure Found (mem : MemioT) (outlen : Bool) (delim : List UInt8) (after : MemioT)
    (start len : Nat) : Prop where
  start : start = mem.get
  inside : mem.get + len + delim.length ≤ mem.size
  here : mem.data.slice (mem.get + len) delim.length = delim
  before : ∀ k < len, mem.data.slice (mem.get + k) delim.length ≠ delim
  after : after =
    { mem with
      data := if outlen then mem.data else mem.data.set (mem.get + len) 0
      get := mem.get + len + delim.length }

theorem lgetmem_found {mem : MemioT} {outlen : Bool} {delim : Option Delim} {start len : Nat}
    (found : (cprLgetmem mem outlen delim).result = some (start, len)) :
    Found mem outlen (delimBytes (delimText delim)) (cprLgetmem mem outlen delim).mem
      start len := by
  unfold cprLgetmem at found ⊢
  split at found
  · cases found
  · rename_i unread
    rw [if_neg unread]
    dsimp only at found ⊢
    split at found
    · rename_i i hit
      obtain ⟨low, high, here, before⟩ := scan_found hit
      have positive := List.length_pos_of_ne_nil (delimBytes_ne_nil delim)
      have inside : i < mem.size := by omega
      obtain ⟨distance, rfl⟩ : ∃ n, i = mem.get + n := Nat.exists_eq_add_of_le low
      rw [Nat.add_sub_cancel_left, if_pos inside] at found ⊢
      rw [Nat.zero_add] at here
      have missed (k : Nat) (early : k < distance) : mem.data.slice (mem.get + k)
          (delimBytes (delimText delim)).length ≠ delimBytes (delimText delim) := by
        have tested := before (mem.get + k) (by omega) (by omega)
        rwa [Nat.zero_add] at tested
      cases outlen with
      | true =>
          cases found
          exact ⟨rfl, high, here, missed, rfl⟩
      | false =>
          cases found
          exact ⟨rfl, high, here, missed, rfl⟩
    · cases found

/-- A line ends at a delimiter behind it and `get` moves past both. -/
theorem lgetmem_some {mem : MemioT} {outlen : Bool} {delim : Option Delim} {start len : Nat}
    (found : (cprLgetmem mem outlen delim).result = some (start, len)) :
    mem.get + len + (delimBytes (delimText delim)).length ≤ mem.size ∧
    (cprLgetmem mem outlen delim).mem.get =
      mem.get + len + (delimBytes (delimText delim)).length ∧
    (cprLgetmem mem outlen delim).mem.size = mem.size := by
  obtain ⟨_, inside, _, _, after⟩ := lgetmem_found found
  rw [after]
  exact ⟨inside, rfl, rfl⟩

/-- `NULL` leaves everything as it is. -/
theorem lgetmem_none {mem : MemioT} {outlen : Bool} {delim : Option Delim}
    (null : (cprLgetmem mem outlen delim).result = none) :
    (cprLgetmem mem outlen delim).mem = mem := by
  unfold cprLgetmem at null ⊢
  split at null
  · rename_i finished
    rw [if_pos finished]
  · rename_i unread
    rw [if_neg unread]
    dsimp only at null ⊢
    split at null
    · rename_i i hit
      cases outlen with
      | true => cases null
      | false =>
          rw [if_neg Bool.false_ne_true] at null ⊢
          split at null
          · cases null
          · rename_i outside
            rw [if_neg outside]
    · rfl

theorem lgetmem_put (mem : MemioT) (outlen : Bool) (delim : Option Delim) :
    (cprLgetmem mem outlen delim).mem.put = mem.put := by
  unfold cprLgetmem
  split
  · rfl
  · dsimp only
    split
    · cases outlen with
      | true => rfl
      | false =>
          rw [if_neg Bool.false_ne_true]
          split <;> rfl
    · rfl

/-- `NULL` means that the delimiter does not occur in the unread bytes. -/
theorem lgetmem_none_iff (mem : MemioT) (outlen : Bool) (delim : Option Delim) :
    (cprLgetmem mem outlen delim).result = none ↔
      ¬ delimBytes (delimText delim) <:+: mem.unread := by
  have positive := List.length_pos_of_ne_nil (delimBytes_ne_nil delim)
  unfold MemioT.unread
  rw [Memory.infix_slice_iff]
  unfold cprLgetmem
  split
  · refine ⟨fun _ => ?_, fun _ => rfl⟩
    rintro ⟨i, inside, _⟩
    omega
  · dsimp only
    split
    · rename_i i hit
      obtain ⟨low, high, here, _⟩ := scan_found hit
      have inside : i < mem.size := by omega
      have occurs : mem.data.slice (mem.get + (i - mem.get))
          (delimBytes (delimText delim)).length = delimBytes (delimText delim) := by
        rwa [Nat.add_sub_cancel' low, ← Nat.zero_add i]
      refine ⟨fun null => ?_, fun missing => absurd ⟨i - mem.get, by omega, occurs⟩ missing⟩
      rw [if_pos inside] at null
      cases outlen <;> cases null
    · rename_i i miss
      obtain ⟨_, tested⟩ := scan_missed miss
      refine ⟨fun _ => ?_, fun _ => rfl⟩
      rintro ⟨k, inside, occurs⟩
      have missed := tested (mem.get + k) (by omega) (by omega)
      rw [Nat.zero_add] at missed
      exact missed occurs

end CprFormal.Memio.Model
