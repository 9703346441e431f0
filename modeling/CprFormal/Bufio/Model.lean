import CprFormal.Library.FlatMemory
import CprFormal.Library.Search
import CprFormal.Library.SizeT
import CprFormal.Strchar.Strlen

/-!
# The buffered streams of `bufio.c`

A `bufio_t` is one allocation: the structure, whose last member `buf` begins the
read area, `bufsize` bytes of it and the write area of `bufsize` bytes behind
`sizeof(bufio_t) + bufsize`.  The cursors never exceed `bufsize`, and sums of two of
them are taken as natural numbers: this assumes `bufsize < 2^63`, which holds of every
allocation with room for two areas.  `cpr_makebuf`, which may be asked for any size,
wraps the number of bytes that it asks `malloc` for.
-/

namespace CprFormal.Bufio.Model

open CprFormal.Library CprFormal.Library.FlatMemory CprFormal.Library.Search
open CprFormal.Strchar.Strlen

/-- `offsetof(bufio_t, buf)`: an `int`, a `struct termios` and four `size_t`. -/
def offsetofBuf : Nat := 96

/-- `sizeof(bufio_t)`, with the two bytes of `buf` padded to eight. -/
def sizeofBufio : Nat := 104

/-- The cursors of a `bufio_t` and the bytes of its allocation; `end_` is `end`. -/
structure BufioT where
  bufsize : Nat
  start : Nat
  end_ : Nat
  put : Nat
  mem : Memory UInt8

namespace BufioT

/-- The address of `buf[i]`. -/
def bufAt (i : Nat) : Nat := offsetofBuf + i

/-- The address of `out[i]`. -/
def outAt (r : BufioT) (i : Nat) : Nat := sizeofBufio + r.bufsize + i

/-- The unread bytes `buf[start..end)`. -/
def unread (r : BufioT) : List UInt8 := r.mem.slice (bufAt r.start) (r.end_ - r.start)

/-- The pending bytes `out[0..put)`. -/
def pending (w : BufioT) : List UInt8 := w.mem.slice (w.outAt 0) w.put

/-- `buf[end] = 0`. -/
def terminate (r : BufioT) : BufioT :=
  { r with mem := r.mem.set (bufAt r.end_) 0 }

end BufioT

open BufioT (bufAt)

/-- The outcome of a `read()`: an error or some bytes, none of them at the end. -/
inductive ReadResult where
  | error
  | bytes (chunk : List UInt8)
  deriving DecidableEq

/-- What `cpr_fillbuf` leaves: the buffer, its return value, the exact value of
the count it passed to `read()` and the bytes `read()` delivered. -/
structure Fill where
  buf : BufioT
  ok : Bool
  asked : Option Int
  delivered : List UInt8

/-- `memmove(buf, &buf[start], end - start)` when the request does not fit
behind `start`. -/
def compact (r : BufioT) (request : Nat) : BufioT :=
  if r.bufsize - r.start < request ∧ r.start < r.end_ then
    { r with
      mem := r.mem.move (bufAt 0) (bufAt r.start) (r.end_ - r.start)
      end_ := r.end_ - r.start
      start := 0 }
  else r

/-- The `read()` of `cpr_fillbuf` and what follows it.  `read()` never delivers
more than it is asked for. -/
def fillRead (r : BufioT) (request : Nat) (refill : Bool) (io : Nat → ReadResult) : Fill :=
  let count := r.bufsize - r.end_
  let asked := some ((r.bufsize : Int) - r.end_)
  match io count with
  | .error => ⟨r.terminate, refill, asked, []⟩
  | .bytes chunk =>
      match chunk.take count with
      | [] => ⟨r.terminate, false, asked, []⟩
      | b :: bs =>
          let filled : BufioT :=
            { r with
              mem := r.mem.write (bufAt r.end_) (b :: bs)
              end_ := r.end_ + (b :: bs).length }
          ⟨filled.terminate, decide (¬ filled.end_ - filled.start < request), asked, b :: bs⟩

/-- `cpr_fillbuf`; a request of zero refills for the delimiter scanners. -/
def cprFillbuf (r : BufioT) (request : Nat) (io : Nat → ReadResult) : Fill :=
  if request > r.bufsize then ⟨r, false, none, []⟩
  else
    let refill := decide (request = 0)
    let request := if request = 0 then r.bufsize else request
    if r.end_ - r.start < request then fillRead (compact r request) request refill io
    else ⟨r.terminate, true, none, []⟩

/-- What a read-side call leaves and gives back. -/
structure Get where
  buf : BufioT
  result : Option (List UInt8)
  asked : Option Int
  delivered : List UInt8

/-- `cpr_xgetbuf`; the bytes at the returned pointer stand for the pointer. -/
def cprXgetbuf (r : BufioT) (request : Nat) (io : Nat → ReadResult) : Get :=
  if r.bufsize < request then ⟨r, none, none, []⟩
  else
    let fill := cprFillbuf r request io
    if fill.ok then
      ⟨{ fill.buf with start := fill.buf.start + request },
        some (fill.buf.mem.slice (bufAt fill.buf.start) request), fill.asked, fill.delivered⟩
    else ⟨fill.buf, none, fill.asked, fill.delivered⟩

/-- `cpr_cgetbuf` takes one byte. -/
def cprCgetbuf (r : BufioT) (io : Nat → ReadResult) : Get :=
  cprXgetbuf r 1 io

/-- The bytes from `start` on are moved to the front of the buffer. -/
def resetMove (r : BufioT) (start : Nat) : BufioT :=
  let remains := r.end_ - start
  { r with
    mem := if start > 0 ∧ remains ≠ 0 then r.mem.move (bufAt 0) (bufAt start) remains
      else r.mem
    start := 0
    end_ := remains }

/-- `cpr_resetbuf`: consume a prefix, move the rest to the front and fill up. -/
def cprResetbuf (r : BufioT) (consume : Nat) (io : Nat → ReadResult) : Fill :=
  if consume > r.bufsize then ⟨r, false, none, []⟩
  else if r.start + consume ≤ r.end_ then
    let moved := resetMove r (r.start + consume)
    let remains := moved.end_
    if remains < r.bufsize then cprFillbuf moved (r.bufsize - remains) io
    else ⟨moved, true, none, []⟩
  else ⟨r, false, none, []⟩

/-- A non-empty delimiter. -/
structure Delim where
  text : CString
  nonempty : text.bytes ≠ []

/-- `NULL` stands for a newline. -/
def delimText : Option Delim → CString
  | none => ⟨[10], by simp⟩
  | some delim => delim.text

/-- The bytes `cpr_lgetbuf` compares with: at most the first sixteen. -/
def delimBytes (delim : CString) : List UInt8 :=
  delim.bytes.take (cprStrlen delim.char 16)

/-- A delimiter longer than sixteen bytes is cut. -/
theorem delimBytes_take (delim : CString) : delimBytes delim = delim.bytes.take 16 := by
  unfold delimBytes
  rw [cprStrlen_char]
  change delim.bytes.take (min delim.bytes.length 16) = _
  rw [Nat.min_comm]
  exact List.take_eq_take_min.symm

/-- A delimiter of at most sixteen bytes is compared whole. -/
theorem delimBytes_short {delim : CString} (short : delim.length ≤ 16) :
    delimBytes delim = delim.bytes := by
  rw [delimBytes_take]
  exact List.take_of_length_le short

theorem delimBytes_ne_nil (delim : Option Delim) : delimBytes (delimText delim) ≠ [] := by
  have whole (text : CString) (nonempty : text.bytes ≠ []) : delimBytes text ≠ [] := by
    rw [delimBytes_take]
    simpa using nonempty
  cases delim with
  | none => exact whole _ (by simp [delimText])
  | some delim => exact whole _ delim.nonempty

/-- `memcmp(&buf[scan], delim, delim_len) == 0` -/
def matchesAt (mem : Memory UInt8) (base : Nat) (delim : List UInt8) (scan : Nat) : Bool :=
  mem.slice (base + scan) delim.length == delim

theorem matchesAt_eq_true {mem : Memory UInt8} {base : Nat} {delim : List UInt8} {scan : Nat} :
    matchesAt mem base delim scan = true ↔ mem.slice (base + scan) delim.length = delim :=
  beq_iff_eq

/-- The scan up to `stop` has found the first delimiter that ends at or before `limit`. -/
theorem scan_found {mem : Memory UInt8} {base limit scan stop : Nat} {delim : List UInt8}
    (found : searchUp (matchesAt mem base delim) (limit + 1 - (scan + delim.length)) scan =
      (stop, true)) :
    scan ≤ stop ∧ stop + delim.length ≤ limit ∧
    mem.slice (base + stop) delim.length = delim ∧
    ∀ k, scan ≤ k → k < stop → mem.slice (base + k) delim.length ≠ delim := by
  obtain ⟨low, high, here, before⟩ := searchUp_found found
  refine ⟨low, by omega, matchesAt_eq_true.mp here, fun k start early occurs => ?_⟩
  have tested := before k start early
  rw [matchesAt_eq_true.mpr occurs] at tested
  cases tested

/-- A scan without a hit stops behind the last position that could hold a delimiter. -/
theorem scan_missed {mem : Memory UInt8} {base limit scan stop : Nat} {delim : List UInt8}
    (missed : searchUp (matchesAt mem base delim) (limit + 1 - (scan + delim.length)) scan =
      (stop, false)) :
    stop = max scan (limit + 1 - delim.length) ∧
    ∀ k, scan ≤ k → k + delim.length ≤ limit → mem.slice (base + k) delim.length ≠ delim := by
  obtain ⟨stopped, before⟩ := searchUp_missed missed
  refine ⟨by omega, fun k start inside occurs => ?_⟩
  have tested := before k start (by omega)
  rw [matchesAt_eq_true.mpr occurs] at tested
  cases tested

/-- One pass of the outer loop of `cpr_lgetbuf`. -/
inductive Pass where
  | line (buf : BufioT) (text : List UInt8)
  | null (fill : Fill)
  | again (fill : Fill) (scan : Nat)

/-- The inner loop from `scan` on and, without a hit, the refill. -/
def lgetbufPass (r : BufioT) (delim : List UInt8) (outlen : Bool) (scan : Nat)
    (io : Nat → ReadResult) : Pass :=
  match searchUp (matchesAt r.mem (bufAt 0) delim) (r.end_ + 1 - (scan + delim.length)) scan with
  | (scan, true) =>
      let len := scan - r.start
      let text := r.mem.slice (bufAt r.start) len
      let mem :=
        if outlen then r.mem
        else if r.start + len < r.bufsize then r.mem.set (bufAt (r.start + len)) 0
        else r.mem
      .line { r with mem := mem, start := scan + delim.length } text
  | (scan, false) =>
      let fill := cprFillbuf r 0 io
      if fill.ok then .again fill scan else .null fill

/-! ## The write side -/

/-- The outcome of a `write()`: an error or a count. -/
inductive WriteResult where
  | error
  | count (n : Nat)
  deriving DecidableEq

namespace WriteResult

/-- The bytes `write()` takes of those it is given. -/
def takes (io : WriteResult) (put : Nat) : Nat :=
  match io with
  | error => 0
  | count n => min n put

/-- `(size_t)result < put`: the error value is the largest `size_t`. -/
def below (io : WriteResult) (put : Nat) : Bool :=
  match io with
  | error => false
  | count n => decide (min n put < put)

end WriteResult

/-- What a write-side call leaves: the buffer, its return value and the bytes
that `write()` took. -/
structure Put where
  buf : BufioT
  ok : Bool
  taken : List UInt8

/-- `cpr_flushbuf`.  Both comparisons are unsigned, so the second one is the first
one again. -/
def cprFlushbuf (w : BufioT) (io : WriteResult) : Put :=
  if w.put = 0 then ⟨w, false, []⟩
  else
    let taken := w.mem.slice (w.outAt 0) (io.takes w.put)
    if io.below w.put then
      let result := io.takes w.put
      let remaining := w.put - result
      ⟨{ w with
          mem := w.mem.move (w.outAt 0) (w.outAt result) remaining
          put := remaining }, false, taken⟩
    else if io.below w.put then ⟨w, false, taken⟩
    else ⟨{ w with put := 0 }, true, taken⟩

/-- The copy of `cpr_xputbuf`; `cpr_memcpy` refuses what does not fit and its
answer is not looked at. -/
def putCopy (w : BufioT) (data : List UInt8) : BufioT :=
  { w with
    mem := if data.length > w.bufsize - w.put then w.mem
      else w.mem.write (w.outAt w.put) data
    put := w.put + data.length }

/-- `cpr_xputbuf`; `none` is a null pointer. -/
def cprXputbuf (w : BufioT) (data : Option (List UInt8)) (io : WriteResult) : Put :=
  match data with
  | none => ⟨w, false, []⟩
  | some data =>
      if data.length > w.bufsize then ⟨w, false, []⟩
      else if data.length + w.put > w.bufsize then
        let flush := cprFlushbuf w io
        if flush.ok then ⟨putCopy flush.buf data, true, flush.taken⟩
        else ⟨flush.buf, false, flush.taken⟩
      else ⟨putCopy w data, true, []⟩

/-- `cpr_cputbuf` -/
def cprCputbuf (w : BufioT) (ch : UInt8) (io : WriteResult) : Put :=
  cprXputbuf w (some [ch]) io

/-- `cpr_sputbuf`; a text longer than the buffer is cut one byte past it, which
`cpr_xputbuf` then refuses. -/
def cprSputbuf (w : BufioT) (text : Option CString) (io : WriteResult) : Put :=
  match text with
  | none => ⟨w, false, []⟩
  | some text =>
      cprXputbuf w (some (text.bytes.take (cprStrlen text.char (w.bufsize + 1)))) io

/-- The outcome of a `vsnprintf()`: an error behind which any bytes may have been
stored, or a text whose length it returns. -/
inductive Formatted where
  | error (stored : List UInt8)
  | text (bytes : List UInt8)
  deriving DecidableEq

/-- The bytes that `vsnprintf()` stores when it is given `estimated` of them. -/
def Formatted.stores (out : Formatted) (estimated : Nat) : List UInt8 :=
  match out with
  | error stored => stored.take estimated
  | text bytes => bytes.take (estimated - 1) ++ [0]

/-- The `vsnprintf()` of `cpr_fmtbuf` and what follows it. -/
def fmtCopy (w : BufioT) (estimated : Nat) (out : Formatted) (taken : List UInt8) : Put :=
  let stored := { w with mem := w.mem.write (w.outAt w.put) (out.stores estimated) }
  match out with
  | .error _ => ⟨stored, false, taken⟩
  | .text bytes =>
      if bytes.length ≥ estimated then ⟨stored, false, taken⟩
      else ⟨{ stored with put := w.put + bytes.length }, true, taken⟩

/-- `cpr_fmtbuf`; `none` is a null format. -/
def cprFmtbuf (w : BufioT) (estimated : Nat) (fmt : Option Formatted) (io : WriteResult) :
    Put :=
  match fmt with
  | none => ⟨w, false, []⟩
  | some out =>
      if estimated = 0 ∨ estimated > w.bufsize then ⟨w, false, []⟩
      else if w.put + estimated > w.bufsize then
        let flush := cprFlushbuf w io
        if flush.ok then fmtCopy flush.buf estimated out flush.taken
        else ⟨flush.buf, false, flush.taken⟩
      else fmtCopy w estimated out []

/-- What a block of `malloc()` holds where `put` is and everywhere else. -/
structure Block where
  put : Nat
  mem : Memory UInt8

/-- `cpr_makebuf`.  `tty` tells whether the descriptor is no terminal or its
attributes could be set; `put` is not assigned. -/
def cprMakebuf (fd : Int) (tty : Bool) (bufsize : Nat) (malloc : Nat → Option Block) :
    Option BufioT :=
  if fd < 0 ∨ bufsize = 0 then none
  else
    match malloc (SizeT.wrap (sizeofBufio + bufsize * 2)) with
    | none => none
    | some block => if tty then some ⟨bufsize, 0, 0, block.put, block.mem⟩ else none

end CprFormal.Bufio.Model
