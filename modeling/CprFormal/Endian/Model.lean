import CprFormal.Library.FlatMemory

/-!
# The accessors of `endian.h`

`ptr` is a memory of bytes from the address that the accessor is given.  The operands of
16 bits are promoted to `int`, which has room for every intermediate value; nothing is lost
when the result is converted back.
-/

namespace CprFormal.Endian.Model

open CprFormal.Library.FlatMemory

def beGet8 (ptr : Memory UInt8) : UInt8 := ptr 0

def beGet16 (ptr : Memory UInt8) : UInt16 :=
  (ptr 0).toUInt16 <<< 8 ||| (ptr 1).toUInt16

def beGet32 (ptr : Memory UInt8) : UInt32 :=
  (ptr 0).toUInt32 <<< 24 ||| (ptr 1).toUInt32 <<< 16 ||| (ptr 2).toUInt32 <<< 8 |||
    (ptr 3).toUInt32

def beGet64 (ptr : Memory UInt8) : UInt64 :=
  (ptr 0).toUInt64 <<< 56 ||| (ptr 1).toUInt64 <<< 48 ||| (ptr 2).toUInt64 <<< 40 |||
    (ptr 3).toUInt64 <<< 32 ||| (ptr 4).toUInt64 <<< 24 ||| (ptr 5).toUInt64 <<< 16 |||
    (ptr 6).toUInt64 <<< 8 ||| (ptr 7).toUInt64

def leGet8 (ptr : Memory UInt8) : UInt8 := ptr 0

def leGet16 (ptr : Memory UInt8) : UInt16 :=
  (ptr 1).toUInt16 <<< 8 ||| (ptr 0).toUInt16

def leGet32 (ptr : Memory UInt8) : UInt32 :=
  (ptr 3).toUInt32 <<< 24 ||| (ptr 2).toUInt32 <<< 16 ||| (ptr 1).toUInt32 <<< 8 |||
    (ptr 0).toUInt32

def leGet64 (ptr : Memory UInt8) : UInt64 :=
  (ptr 7).toUInt64 <<< 56 ||| (ptr 6).toUInt64 <<< 48 ||| (ptr 5).toUInt64 <<< 40 |||
    (ptr 4).toUInt64 <<< 32 ||| (ptr 3).toUInt64 <<< 24 ||| (ptr 2).toUInt64 <<< 16 |||
    (ptr 1).toUInt64 <<< 8 ||| (ptr 0).toUInt64

def beSet8 (ptr : Memory UInt8) (value : UInt8) : Memory UInt8 := ptr.set 0 value

def beSet16 (ptr : Memory UInt8) (value : UInt16) : Memory UInt8 :=
  let ptr := ptr.set 0 ((value &&& 0xff00) >>> 8).toUInt8
  ptr.set 1 (value &&& 0xff).toUInt8

def beSet32 (ptr : Memory UInt8) (value : UInt32) : Memory UInt8 :=
  let ptr := ptr.set 0 ((value &&& 0xff000000) >>> 24).toUInt8
  let ptr := ptr.set 1 ((value &&& 0x00ff0000) >>> 16).toUInt8
  let ptr := ptr.set 2 ((value &&& 0x0000ff00) >>> 8).toUInt8
  ptr.set 3 (value &&& 0xff).toUInt8

def beSet64 (ptr : Memory UInt8) (value : UInt64) : Memory UInt8 :=
  let ptr := ptr.set 0 ((value &&& 0xff00000000000000) >>> 56).toUInt8
  let ptr := ptr.set 1 ((value &&& 0x00ff000000000000) >>> 48).toUInt8
  let ptr := ptr.set 2 ((value &&& 0x0000ff0000000000) >>> 40).toUInt8
  let ptr := ptr.set 3 ((value &&& 0x000000ff00000000) >>> 32).toUInt8
  let ptr := ptr.set 4 ((value &&& 0x00000000ff000000) >>> 24).toUInt8
  let ptr := ptr.set 5 ((value &&& 0x0000000000ff0000) >>> 16).toUInt8
  let ptr := ptr.set 6 ((value &&& 0x000000000000ff00) >>> 8).toUInt8
  ptr.set 7 (value &&& 0xff).toUInt8

def leSet8 (ptr : Memory UInt8) (value : UInt8) : Memory UInt8 := ptr.set 0 value

def leSet16 (ptr : Memory UInt8) (value : UInt16) : Memory UInt8 :=
  let ptr := ptr.set 1 ((value &&& 0xff00) >>> 8).toUInt8
  ptr.set 0 (value &&& 0xff).toUInt8

def leSet32 (ptr : Memory UInt8) (value : UInt32) : Memory UInt8 :=
  let ptr := ptr.set 3 ((value &&& 0xff000000) >>> 24).toUInt8
  let ptr := ptr.set 2 ((value &&& 0x00ff0000) >>> 16).toUInt8
  let ptr := ptr.set 1 ((value &&& 0x0000ff00) >>> 8).toUInt8
  ptr.set 0 (value &&& 0xff).toUInt8

def leSet64 (ptr : Memory UInt8) (value : UInt64) : Memory UInt8 :=
  let ptr := ptr.set 7 ((value &&& 0xff00000000000000) >>> 56).toUInt8
  let ptr := ptr.set 6 ((value &&& 0x00ff000000000000) >>> 48).toUInt8
  let ptr := ptr.set 5 ((value &&& 0x0000ff0000000000) >>> 40).toUInt8
  let ptr := ptr.set 4 ((value &&& 0x000000ff00000000) >>> 32).toUInt8
  let ptr := ptr.set 3 ((value &&& 0x00000000ff000000) >>> 24).toUInt8
  let ptr := ptr.set 2 ((value &&& 0x0000000000ff0000) >>> 16).toUInt8
  let ptr := ptr.set 1 ((value &&& 0x000000000000ff00) >>> 8).toUInt8
  ptr.set 0 (value &&& 0xff).toUInt8

/-- The two bytes of the test. -/
example : beGet16 (fun i => if i = 0 then 1 else 2) = 258 ∧
    leGet16 (fun i => if i = 0 then 1 else 2) = 513 := by
  decide

end CprFormal.Endian.Model
