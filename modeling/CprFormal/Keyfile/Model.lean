import CprFormal.Library.FlatMemory
import CprFormal.Library.Search
import CprFormal.Strchar.Ctype
import CprFormal.Strchar.Strlen

/-!
# The key files of `keyfile.c`

A key file has sections with keys and values.  `load_keyfile` works in place on a
line buffer of 96 bytes; its pointers are indices from the start of the buffer.
What `fgets` does not overwrite stays in the buffer from line to line, and an
index past its end reads whatever lies behind it on the stack.  Opening the file
and the allocations are taken to succeed.
-/

namespace CprFormal.Keyfile.Model

open CprFormal.Library.FlatMemory CprFormal.Library.Search
open CprFormal.Strchar.Ctype CprFormal.Strchar.Strlen

/-- `keydata_t` -/
structure KeydataT where
  id : CString
  value : CString
  deriving DecidableEq

/-- `keysection_t`, with its keys from the first to the last. -/
structure KeysectionT where
  id : CString
  keys : List KeydataT
  deriving DecidableEq

/-- `sizeof(linebuf)` -/
def sizeofLinebuf : Nat := 96

/-- The text at an index, at most `limit` bytes of it. -/
def textAt (mem : Memory UInt8) (i limit : Nat) : CString where
  bytes := mem.slice i (cprStrlen (fun j => mem (i + j)) limit)
  nonNul b member := by
    obtain ⟨j, inside, rfl⟩ := List.getElem_of_mem member
    rw [Memory.getElem_slice]
    rw [Memory.slice_length] at inside
    exact cprStrlen_ne_zero (fun j => mem (i + j)) limit inside

/-- The loops of `cpr_upper` and `cpr_lower`. -/
def convertText (convert : UInt8 → UInt8) (keeps : ∀ b, convert b = 0 ↔ b = 0) (text : CString) :
    CString where
  bytes := text.bytes.map convert
  nonNul b member := by
    obtain ⟨c, old, rfl⟩ := List.mem_map.mp member
    exact fun zero => text.nonNul c old ((keeps c).mp zero)

/-- `cpr_upper(&mem[i], limit)` -/
def cprUpper (mem : Memory UInt8) (i limit : Nat) : CString :=
  convertText toupper toupper_eq_zero (textAt mem i limit)

/-- `cpr_lower(&mem[i], limit)` -/
def cprLower (mem : Memory UInt8) (i limit : Nat) : CString :=
  convertText tolower tolower_eq_zero (textAt mem i limit)

/-- `strdup(&mem[i])`; the terminator that `fgets` has stored comes within the
length of the buffer. -/
def strdup (mem : Memory UInt8) (i : Nat) : CString := textAt mem i sizeofLinebuf

/-- `get_keyvalue` -/
def getKeyvalue (group : KeysectionT) (id : CString) : Option CString :=
  (group.keys.find? fun key => decide (key.id = id)).map KeydataT.value

/-- `make_keydata`: the new key comes first. -/
def makeKeydata (group : KeysectionT) (id value : CString) : KeysectionT :=
  { group with keys := ⟨id, value⟩ :: group.keys }

/-- `make_keysection("*", NULL)` -/
def rootSection : KeysectionT := ⟨⟨[42], by simp⟩, []⟩

/-! ## Loading and saving -/

/-- What a line of the file brings. -/
inductive Entry where
  | skip
  | header (id : CString)
  | key (id value : CString)
  deriving DecidableEq

/-- `while (len > 0 && isspace(lp[--len])) lp[len] = 0;` -/
def trimRight : Memory UInt8 → Nat → Memory UInt8 × Nat
  | mem, 0 => (mem, 0)
  | mem, len + 1 => if isspace (mem len) then trimRight (mem.set len 0) len else (mem, len)

/-- The first index from `i` on without white space, which a NUL is not. -/
def skipSpace (mem : Memory UInt8) (i : Nat) : Nat :=
  (searchUp (fun j => !isspace (mem j)) sizeofLinebuf i).1

/-- `while (len > 1 && isspace(lp[--len])) ;` -/
def backOverSpace (mem : Memory UInt8) (lp : Nat) : Nat → Nat
  | 0 => 0
  | 1 => 1
  | len + 2 => if isspace (mem (lp + (len + 1))) then backOverSpace mem lp (len + 1) else len + 1

/-- A line that begins with `[` and ends with `]`. -/
def parseHeader (mem : Memory UInt8) (lp len : Nat) : Memory UInt8 × Entry :=
  let len := backOverSpace mem lp len
  if len < 2 then (mem, .skip)
  else
    let name := skipSpace mem (lp + 1)
    let len := len - (name - (lp + 1))
    let mem := mem.set (name + len) 0
    (mem, .header (cprUpper mem name 32))

/-- `while (*kw && *kw != '=') ++kw;` -/
def findEquals (mem : Memory UInt8) (lp : Nat) : Nat :=
  (searchUp (fun j => mem j == 0 || mem j == 61) sizeofLinebuf lp).1

/-- `while (kw > lp && isspace(*kw)) --kw;` with `kw` at `lp + n`. -/
def backOverKey (mem : Memory UInt8) (lp : Nat) : Nat → Nat
  | 0 => lp
  | n + 1 => if isspace (mem (lp + (n + 1))) then backOverKey mem lp n else lp + (n + 1)

/-- One pair of quotes around the value at `body` is taken off. -/
def unquote (mem : Memory UInt8) (body : Nat) : Memory UInt8 × Nat :=
  let ep := body + cprStrlen (fun j => mem (body + j)) sizeofLinebuf - 1
  if (mem body = 39 ∨ mem body = 34) ∧ mem ep = mem body then
    let mem := mem.set ep 0
    (mem, if mem body ≠ 0 then body + 1 else body)
  else (mem, body)

/-- A line that begins with an alphanumeric. -/
def parseAssignment (mem : Memory UInt8) (lp : Nat) : Memory UInt8 × Entry :=
  let kw := findEquals mem lp
  if kw = lp ∨ mem kw = 0 then (mem, .skip)
  else
    let body := kw + 1
    let kw := backOverKey mem lp (kw - 1 - lp)
    if kw = lp then (mem, .skip)
    else
      let mem := mem.set (kw + 1) 0
      let body := if mem body ≠ 0 ∧ isspace (mem body) then body + 1 else body
      let (mem, body) := unquote mem body
      (mem, .key (cprLower mem lp 32) (strdup mem body))

/-- The body of the loop of `load_keyfile` on a line in the buffer. -/
def parseLine (mem : Memory UInt8) : Memory UInt8 × Entry :=
  let len := cprStrlen mem sizeofLinebuf
  if len = 0 ∨ mem (len - 1) ≠ 10 then (mem, .skip)
  else
    let (mem, len) := trimRight mem len
    let lp := skipSpace mem 0
    if mem lp = 0 then (mem, .skip)
    else if mem lp = 91 ∧ mem (lp + len) = 93 then parseHeader mem lp len
    else if !isalnum (mem lp) then (mem, .skip)
    else parseAssignment mem lp

/-- The bytes one `fgets` takes, at most `n` and up to a newline, and the rest. -/
def takeLine : Nat → List UInt8 → List UInt8 × List UInt8
  | 0, file => ([], file)
  | _ + 1, [] => ([], [])
  | n + 1, b :: file =>
      if b = 10 then ([b], file)
      else
        let (line, rest) := takeLine n file
        (b :: line, rest)

/-- What the calls of `fgets` take one after the other until it returns `NULL`. -/
def fgetsLines : Nat → List UInt8 → List (List UInt8)
  | 0, _ => []
  | _ + 1, [] => []
  | fuel + 1, b :: file =>
      let (line, rest) := takeLine (sizeofLinebuf - 1) (b :: file)
      line :: fgetsLines fuel rest

/-- The line buffer, the sections before the current one and the current one. -/
structure Loading where
  mem : Memory UInt8
  before : List KeysectionT
  current : KeysectionT

def Loading.sections (s : Loading) : List KeysectionT := s.before ++ [s.current]

/-- One pass of the loop of `load_keyfile`. -/
def loadLine (s : Loading) (line : List UInt8) : Loading :=
  match parseLine (s.mem.write 0 (line ++ [0])) with
  | (mem, .skip) => ⟨mem, s.before, s.current⟩
  | (mem, .header id) => ⟨mem, s.before ++ [s.current], ⟨id, []⟩⟩
  | (mem, .key id value) => ⟨mem, s.before, makeKeydata s.current id value⟩

/-- `load_keyfile` of a file over what the stack holds in place of the buffer. -/
def loadKeyfile (stack : Memory UInt8) (file : List UInt8) : List KeysectionT :=
  ((fgetsLines file.length file).foldl loadLine ⟨stack, [], rootSection⟩).sections

/-- `strchr(value, '\'') != NULL` decides on the quote. -/
def quoteFor (value : CString) : UInt8 := if value.bytes.contains 39 then 34 else 39

/-- `%s='%s'\n` or `%s="%s"\n` -/
def keyLine (key : KeydataT) : List UInt8 :=
  key.id.bytes ++ 61 :: quoteFor key.value :: key.value.bytes ++ [quoteFor key.value, 10]

/-- `[%s]\n` -/
def headerLine (id : CString) : List UInt8 := 91 :: id.bytes ++ [93, 10]

/-- The lines `save_keyfile` writes. -/
def savedLines (root : List KeysectionT) : List (List UInt8) :=
  root.flatMap fun group => headerLine group.id :: group.keys.map keyLine

/-- `save_keyfile` -/
def saveKeyfile (root : List KeysectionT) : List UInt8 := (savedLines root).flatten

end CprFormal.Keyfile.Model
