import CprFormal.Library.ByteBits

/-!
# The bit sets of `bitset.c`

A bit set of `bitsize` bits is a block of `cpr_bitsize(bitsize)` bytes; `none` is
`NULL`.  The outcome of `malloc` is an argument of the calls that make one.
-/

namespace CprFormal.Bitset.Model

open CprFormal.Library.Search

/-- `bits_t` -/
abbrev BitsT := Option (List UInt8)

/-- `cpr_bitsize` -/
def cprBitsize (bits : Nat) : Nat :=
  let result := bits / 8
  if bits % 8 ≠ 0 then result + 1 else result

def bytemask (bits : Nat) : UInt8 := UInt8.ofNat (1 <<< (bits % 8))

theorem clear_lowest_lt {n : UInt8} (nonzero : n ≠ 0) : (n &&& (n - 1)).toNat < n.toNat := by
  have positive : 0 < n.toNat := Nat.pos_of_ne_zero fun zero => nonzero (UInt8.toNat_inj.mp zero)
  have one : (1 : UInt8) ≤ n := UInt8.le_iff_toNat_le.mpr positive
  have below : (n &&& (n - 1)).toNat ≤ (n - 1).toNat := by
    rw [UInt8.toNat_and]
    exact Nat.and_le_right
  rw [UInt8.toNat_sub_of_le _ _ one] at below
  exact Nat.lt_of_le_of_lt below (Nat.sub_lt positive Nat.one_pos)

/-- The loop of `count_bits` clears the lowest bit that is set. -/
def countBits (n : UInt8) : Nat :=
  if n = 0 then 0 else countBits (n &&& (n - 1)) + 1
termination_by n.toNat
decreasing_by exact clear_lowest_lt (by assumption)

/-- `cpr_makebits` -/
def cprMakebits (bitsize : Nat) (malloc : Bool) : BitsT :=
  if malloc then some (List.replicate (cprBitsize bitsize) 0) else none

/-- `cpr_makemask` -/
def cprMakemask (bits mask : BitsT) (bitsize : Nat) (malloc : Bool) : BitsT :=
  match bits, mask with
  | some bits, some mask =>
      if bitsize = 0 then none
      else if malloc then
        some ((List.range (cprBitsize bitsize)).map fun pos =>
          bits.getD pos 0 &&& mask.getD pos 0)
      else none
  | _, _ => none

/-- `cpr_foldmask`; the second result tells whether the mask has been freed. -/
def cprFoldmask (bits mask : BitsT) (bitsize : Nat) : BitsT × Bool :=
  match mask with
  | none => (bits, false)
  | some mask =>
      if bitsize = 0 then (bits, false)
      else
        match bits with
        | none => (none, true)
        | some bits =>
            (some ((List.range (cprBitsize bitsize)).map fun pos =>
              bits.getD pos 0 &&& ~~~mask.getD pos 0), true)

/-- `cpr_bitget` -/
def cprBitget (bits : BitsT) (offset : Nat) : Bool :=
  match bits with
  | none => false
  | some bits => bits.getD (offset / 8) 0 &&& bytemask offset != 0

/-- `cpr_bitset` -/
def cprBitset (bits : BitsT) (offset : Nat) : BitsT :=
  match bits with
  | none => none
  | some bits =>
      let bytes := offset / 8
      some (bits.set bytes (bits.getD bytes 0 ||| bytemask offset))

/-- `cpr_bitclr` -/
def cprBitclr (bits : BitsT) (offset : Nat) : BitsT :=
  match bits with
  | none => none
  | some bits =>
      let bytes := offset / 8
      some (bits.set bytes (bits.getD bytes 0 &&& ~~~bytemask offset))

/-- `cpr_anybits` -/
def cprAnybits (bits : BitsT) (bitsize : Nat) : Bool :=
  match bits with
  | none => false
  | some bits => (bits.take (cprBitsize bitsize)).any (· != 0)

/-- `cpr_bitcount` -/
def cprBitcount (bits : BitsT) (bitsize : Nat) : Nat :=
  match bits with
  | none => 0
  | some bits =>
      if bitsize = 0 then 0
      else (bits.take (cprBitsize bitsize)).foldl (fun total b => total + countBits b) 0

/-- `cpr_allbits` -/
def cprAllbits (bits : BitsT) (bitsize : Nat) : Bool :=
  cprBitcount bits bitsize == bitsize

/-- `__builtin_ffs`: one more than the index of the lowest bit that is set. -/
def builtinFfs (x : BitVec 32) : Nat :=
  match searchUp (fun k => x.getLsbD k) 32 0 with
  | (k, true) => k + 1
  | (_, false) => 0

/-- A byte as an `int`. -/
def promote (b : UInt8) : BitVec 32 := b.toBitVec.setWidth 32

/-- The loop of `cpr_lowestclr` and `cpr_lowestset` from byte `i` on: the first byte
that is not `skip` decides. -/
def lowestLoop (bitsize : Nat) (skip : UInt8) (word : UInt8 → BitVec 32) :
    List UInt8 → Nat → Nat
  | [], _ => bitsize
  | b :: rest, i =>
      if b ≠ skip then
        let pos := i * 8 + (builtinFfs (word b) - 1)
        if pos < bitsize then pos else bitsize
      else lowestLoop bitsize skip word rest (i + 1)

/-- `cpr_lowestclr` -/
def cprLowestclr (bits : BitsT) (bitsize : Nat) : Nat :=
  match bits with
  | none => bitsize
  | some bits =>
      lowestLoop bitsize 0xFF (fun b => ~~~promote b) (bits.take (cprBitsize bitsize)) 0

/-- `cpr_lowestset` -/
def cprLowestset (bits : BitsT) (bitsize : Nat) : Nat :=
  match bits with
  | none => bitsize
  | some bits => lowestLoop bitsize 0x00 promote (bits.take (cprBitsize bitsize)) 0

end CprFormal.Bitset.Model
