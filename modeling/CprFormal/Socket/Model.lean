import CprFormal.Library.FlatMemory
import CprFormal.Strchar.Strlen

/-!
# Lines over a socket

The answers of `recv` come one after the other: a byte, or a failure.  `char` is
signed, so the bytes from 128 on are negative codes.  What `send` is given is
recorded; `cpr_getline` does not look at what it returns.  `text` is not `NULL`, and
`limit` is the `max` of the source.
-/

namespace CprFormal.Socket.Model

open CprFormal.Library.FlatMemory CprFormal.Strchar.Strlen

/-- `cpr_getch`, for what `recv` answers. -/
def cprGetch : Option UInt8 → Int
  | some buf => if buf < 128 then buf.toNat else (buf.toNat : Int) - 256
  | none => -1

/-- The bytes `cpr_putch` sends. -/
def cprPutch (code : UInt8) : List UInt8 := [code]

/-- The bytes `cpr_putline` sends. -/
def cprPutline (text : CString) (limit : Nat) : List UInt8 :=
  let limit := if limit ≠ 0 then 256 else limit
  let size := cprStrlen text.char limit
  if size = 0 then [] else text.bytes.take size

theorem cprPutline_take (text : CString) (limit : Nat) :
    cprPutline text limit =
      text.bytes.take (cprStrlen text.char (if limit ≠ 0 then 256 else limit)) := by
  unfold cprPutline
  dsimp only
  generalize cprStrlen text.char (if limit ≠ 0 then 256 else limit) = size
  split
  · rename_i none_counted
    rw [none_counted, List.take_zero]
  · rfl

/-- `"\b \b"` -/
def eraseSequence : CString := ⟨[8, 32, 8], by simp⟩

/-- The variables of `cpr_getline`, the bytes it has sent, and what it has returned. -/
structure Getline where
  text : Memory UInt8
  pos : Nat
  cr : Bool
  sent : List UInt8
  result : Option Int

namespace Getline

/-- `while (pos < (max - 1))` -/
def again (limit : Nat) (s : Getline) : Getline :=
  if s.pos < limit - 1 then s else { s with result := some s.pos }

/-- `text[pos++] = (char)code; text[pos] = 0;` -/
def push (s : Getline) (code : Int) : Getline :=
  { s with
    text := (s.text.set s.pos (UInt8.ofInt code)).set (s.pos + 1) 0
    pos := s.pos + 1 }

/-- `text[--pos] = 0;` -/
def pop (s : Getline) : Getline :=
  { s with text := s.text.set (s.pos - 1) 0, pos := s.pos - 1 }

def send (s : Getline) (bytes : List UInt8) : Getline := { s with sent := s.sent ++ bytes }

end Getline

/-- `if (!text || max < 2) return 0; ... text[0] = 0;` up to the first test of the loop. -/
def startLine (text : Memory UInt8) (limit : Nat) : Getline :=
  if limit < 2 then ⟨text, 0, false, [], some 0⟩
  else Getline.again limit ⟨text.set 0 0, 0, false, [], none⟩

/-- The body of the loop of `cpr_getline` for one answer of `recv`, and the next test. -/
def getlineBody (limit : Nat) (echo : Bool) (s : Getline) (answer : Option UInt8) : Getline :=
  let code := cprGetch answer
  if code = -1 then { s with result := some (-1) }
  else if code > 31 ∧ code < 127 then
    let s := { s with cr := false }.push code
    let s := if echo then s.send (cprPutch (UInt8.ofInt code)) else s
    s.again limit
  else if code = 10 then
    let s := if echo && s.cr then s.send (cprPutch 13) else s
    { s.send (cprPutch 10) with result := some s.pos }
  else if code = 13 ∧ s.cr = true then { s with result := some s.pos }
  else if code = 13 then { s with cr := true }.again limit
  else
    let s := { s with cr := false }
    if code = 8 ∨ code = 127 then
      if s.pos = 0 then s.again limit
      else
        let s := s.pop
        let s := if echo then s.send (cprPutline eraseSequence 0) else s
        s.again limit
    else s.again limit

/-- A line that has been returned takes no more answers. -/
def cprGetline (limit : Nat) (echo : Bool) (s : Getline) (answer : Option UInt8) : Getline :=
  if s.result.isSome then s else getlineBody limit echo s answer

end CprFormal.Socket.Model
