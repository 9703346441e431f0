import CprFormal.Bufio.Reader

/-!
# What `cpr_fillbuf` makes of one `read()`

A request of zero asks for a full buffer, so it only succeeds by filling it, or when
`read()` fails.  An exhausted buffer (`start == end > 0`) is not rewound, and what is
in front of `start` is not used again.
-/

namespace CprFormal.Bufio.Refill

open CprFormal.Library.FlatMemory
open CprFormal.Bufio.Model CprFormal.Bufio.Reader
open CprFormal.Bufio.Model.BufioT (bufAt)

/-- The three ways of a request of zero: the buffer is full; it has unread bytes, which
are in front, or none and no gap; it is exhausted. -/
inductive Refills (r : BufioT) (io : Nat → ReadResult) (fill : Fill) : Prop where
  | full (start : r.start = 0) (whole : r.end_ = r.bufsize)
      (same : fill = ⟨r.terminate, true, none, []⟩)
  | front (r' : BufioT) (kept : r.start < r.end_ ∨ r.start = 0)
      (short : r.end_ - r.start < r.bufsize) (start : r'.start = 0)
      (end_ : r'.end_ = r.end_ - r.start) (bufsize : r'.bufsize = r.bufsize)
      (read : fill = fillRead r' r.bufsize true io)
  | exhausted (positive : 0 < r.start) (empty : r.start = r.end_)
      (read : fill = fillRead r r.bufsize true io)

theorem fillbuf_refills {r : BufioT} (cursors : Cursors r) (io : Nat → ReadResult) :
    Refills r io (cprFillbuf r 0 io) := by
  obtain ⟨order, inside⟩ := cursors
  have whole : cprFillbuf r 0 io =
      if r.end_ - r.start < r.bufsize then fillRead (compact r r.bufsize) r.bufsize true io
      else ⟨r.terminate, true, none, []⟩ := rfl
  rw [whole]
  by_cases short : r.end_ - r.start < r.bufsize
  · rw [if_pos short]
    unfold compact
    by_cases moved : r.bufsize - r.start < r.bufsize ∧ r.start < r.end_
    · rw [if_pos moved]
      exact .front
        { r with
          mem := r.mem.move (bufAt 0) (bufAt r.start) (r.end_ - r.start)
          end_ := r.end_ - r.start
          start := 0 } (.inl moved.2) short rfl rfl rfl rfl
    · rw [if_neg moved]
      by_cases gap : r.start = 0
      · exact .front r (.inr gap) short gap (by omega) rfl rfl
      · exact .exhausted (Nat.pos_of_ne_zero gap) (by omega) rfl
  · rw [if_neg short]
    exact .full (by omega) (by omega) rfl

/-- After a successful request of zero the unread bytes are in front, unless the buffer
is still exhausted. -/
theorem refill_start {r : BufioT} (cursors : Cursors r) {io : Nat → ReadResult}
    (ok : (cprFillbuf r 0 io).ok = true) :
    (cprFillbuf r 0 io).buf.start = 0 ∧ (r.start < r.end_ ∨ r.start = 0) ∨
    0 < r.start ∧ r.start = r.end_ ∧ (cprFillbuf r 0 io).buf.start = r.start ∧
      (cprFillbuf r 0 io).buf.end_ = r.end_ := by
  have inside := cursors.end_
  cases fillbuf_refills cursors io with
  | full start whole same =>
      rw [same]
      exact .inl ⟨start, .inr start⟩
  | front r' kept short start end_ bufsize read =>
      rw [read]
      refine .inl ⟨?_, kept⟩
      cases answer : io (r'.bufsize - r'.end_) with
      | error => rw [(fillRead_failed _ _ answer).start, start]
      | bytes chunk => rw [(fillRead_delivered _ _ answer).start, start]
  | exhausted positive empty read =>
      rw [read] at ok ⊢
      cases answer : io (r.bufsize - r.end_) with
      | error =>
          have failed := fillRead_failed r.bufsize true answer
          exact .inr ⟨positive, empty, failed.start, failed.end_⟩
      | bytes chunk =>
          have delivered := (fillRead_delivered r.bufsize true answer).ok.mp ok
          have length := List.length_take_le (r.bufsize - r.end_) chunk
          omega

/-- Without a failure a request of zero succeeds exactly if the unread bytes and the
chunk fill the buffer. -/
theorem refill_chunk {r : BufioT} (cursors : Cursors r) (io : Nat → ReadResult)
    {chunk : List UInt8} (answer : ∀ count, io count = .bytes chunk) :
    let delivered := chunk.take (r.bufsize - r.unread.length)
    ((cprFillbuf r 0 io).ok = true ↔
      (r.start < r.end_ ∨ r.start = 0) ∧ (r.unread ++ delivered).length = r.bufsize) ∧
    ((cprFillbuf r 0 io).ok = true →
      (cprFillbuf r 0 io).buf.start = 0 ∧ (cprFillbuf r 0 io).delivered = delivered) := by
  obtain ⟨order, inside⟩ := cursors
  dsimp only
  rw [List.length_append, unread_length]
  cases fillbuf_refills ⟨order, inside⟩ io with
  | full start whole same =>
      have none : chunk.take (r.bufsize - (r.end_ - r.start)) = [] := by
        rw [show r.bufsize - (r.end_ - r.start) = 0 by omega]
        rfl
      rw [same, none]
      refine ⟨⟨fun _ => ⟨.inr start, ?_⟩, fun _ => rfl⟩, fun _ => ⟨start, rfl⟩⟩
      rw [List.length_nil]
      omega
  | front r' kept short start end_ bufsize read =>
      obtain ⟨ok, start', _, delivered⟩ := fillRead_delivered r.bufsize true (answer _)
      rw [start, end_, bufsize] at *
      have length := List.length_take_le (r.bufsize - (r.end_ - r.start)) chunk
      rw [read, ok]
      refine ⟨⟨fun ⟨_, enough⟩ => ⟨kept, by omega⟩, fun ⟨_, whole⟩ => ⟨fun none => ?_, by omega⟩⟩,
        fun _ => ⟨start', delivered⟩⟩
      rw [none, List.length_nil] at whole
      omega
  | exhausted positive empty read =>
      have refused : ¬ (cprFillbuf r 0 io).ok = true := by
        rw [read, (fillRead_delivered r.bufsize true (answer _)).ok]
        rintro ⟨_, enough⟩
        have length := List.length_take_le (r.bufsize - r.end_) chunk
        omega
      exact ⟨⟨fun ok => absurd ok refused, fun ⟨kept, _⟩ => by omega⟩,
        fun ok => absurd ok refused⟩

end CprFormal.Bufio.Refill
