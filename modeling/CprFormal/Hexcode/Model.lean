import CprFormal.Library.FlatMemory
import CprFormal.Library.Hexadecimal
import CprFormal.Strchar.Ctype
import CprFormal.Strchar.Strlen

/-!
# The hexadecimal codec of `memory.c`

`cpr_hexload` finds a digit by its place in the table `hex`; `strchr` finds the
terminator of the table too.  Pointers are not `NULL` and the allocation succeeds.
-/

namespace CprFormal.Hexcode.Model

open CprFormal.Library.FlatMemory CprFormal.Library.Hexadecimal
open CprFormal.Strchar.Ctype CprFormal.Strchar.Strlen

/-- `"0123456789abcdef"` -/
def hex : CString :=
  ⟨[48, 49, 50, 51, 52, 53, 54, 55, 56, 57, 97, 98, 99, 100, 101, 102], by simp⟩

/-- `strchr(list, c) - list`, where the terminator belongs to the list. -/
def strchr (list : CString) (c : UInt8) : Option Nat := (list.bytes ++ [0]).idxOf? c

/-- The output, the number of bytes in it and the offsets of `str` that have been read,
the last one first. -/
structure Hexload where
  out : Memory UInt8
  count : Nat
  reads : List Nat

/-- `((uint8_t)(cp1 - hex) << 4) | (uint8_t)(cp2 - hex)` -/
def pairByte (cp1 cp2 : Nat) : UInt8 := UInt8.ofNat (cp1 <<< 4 ||| cp2)

/-- The characters of `str` from `i` on are read. -/
def Hexload.readPair (s : Hexload) (i : Nat) : Hexload :=
  { s with reads := (i + 1) :: i :: s.reads }

/-- `out[count++] = ...` -/
def Hexload.store (s : Hexload) (cp1 cp2 : Nat) : Hexload :=
  { s with out := s.out.set s.count (pairByte cp1 cp2), count := s.count + 1 }

@[simp]
theorem Hexload.readPair_count (s : Hexload) (i : Nat) : (s.readPair i).count = s.count := rfl

@[simp]
theorem Hexload.readPair_out (s : Hexload) (i : Nat) : (s.readPair i).out = s.out := rfl

@[simp]
theorem Hexload.store_count (s : Hexload) (cp1 cp2 : Nat) :
    (s.store cp1 cp2).count = s.count + 1 := rfl

@[simp]
theorem Hexload.store_out (s : Hexload) (cp1 cp2 : Nat) :
    (s.store cp1 cp2).out = s.out.set s.count (pairByte cp1 cp2) := rfl

/-- The loop of `cpr_hexload` with room for `left` bytes and `str` advanced by `i`. -/
def hexloadLoop (str : Nat → UInt8) : Nat → Nat → Hexload → Hexload
  | 0, _, s => s
  | left + 1, i, s =>
      if str i = 0 then { s with reads := i :: s.reads }
      else
        match strchr hex (tolower (str i)), strchr hex (tolower (str (i + 1))) with
        | some cp1, some cp2 => hexloadLoop str left (i + 2) ((s.readPair i).store cp1 cp2)
        | _, _ => s.readPair i

/-- `cpr_hexload` -/
def cprHexload (out : Memory UInt8) (str : Nat → UInt8) (size : Nat) : Hexload :=
  if size = 0 then ⟨out, 0, []⟩ else hexloadLoop str size 0 ⟨out, 0, []⟩

/-- The loop of `cpr_hexdup`, with `bin` advanced by `i` and `put` by `2 * i`. -/
def hexdupLoop (bin : Memory UInt8) : Nat → Nat → Nat → Memory UInt8 → Memory UInt8
  | 0, _, put, out => out.set put 0
  | size + 1, i, put, out =>
      hexdupLoop bin size (i + 1) (put + 2)
        ((out.set put (hex.char (bin i >>> 4).toNat)).set (put + 1)
          (hex.char (bin i &&& 0x0f).toNat))

/-- `cpr_hexdup` into the block that `malloc` gives. -/
def cprHexdup (block bin : Memory UInt8) (size : Nat) : Memory UInt8 :=
  hexdupLoop bin size 0 0 block

theorem strchr_hex (c : UInt8) (nonNul : c ≠ 0) : strchr hex (tolower c) = value c := by
  obtain ⟨c⟩ := c
  revert c
  decide +kernel

/-- The terminator is found behind the last digit. -/
theorem strchr_hex_zero : strchr hex (tolower 0) = some 16 := by
  decide +kernel

theorem hex_char_high (b : UInt8) : hex.char (b >>> 4).toNat = digit (b.toNat / 16) := by
  obtain ⟨b⟩ := b
  revert b
  decide +kernel

theorem hex_char_low (b : UInt8) : hex.char (b &&& 0x0f).toNat = digit (b.toNat % 16) := by
  obtain ⟨b⟩ := b
  revert b
  decide +kernel

theorem pairByte_eq (cp1 : Nat) {cp2 : Nat} (small : cp2 < 16) :
    pairByte cp1 cp2 = UInt8.ofNat (16 * cp1 + cp2) := by
  unfold pairByte
  rw [← Nat.shiftLeft_add_eq_or_of_lt (i := 4) small, Nat.shiftLeft_eq, Nat.mul_comm]

end CprFormal.Hexcode.Model
