import CprFormal.Bufio.Model
import CprFormal.Library.Transition

/-!
# The write side of a buffered stream

The bytes the descriptor has taken followed by the pending ones are the bytes of
all puts that returned true, as long as no `write()` reports an error.  The error
value compares as the largest `size_t`, so `cpr_flushbuf` takes it for a complete
write: it forgets the pending bytes and returns true.
-/

namespace CprFormal.Bufio.Writer

open CprFormal.Library.FlatMemory CprFormal.Library.Transition
open CprFormal.Strchar.Strlen
open CprFormal.Bufio.Model

/-- A write-side call. -/
inductive Op where
  | xputbuf (data : Option (List UInt8))
  | cputbuf (ch : UInt8)
  | sputbuf (text : Option CString)
  | flushbuf

/-- A call with the answer of `write()` should it be asked. -/
structure Call where
  op : Op
  io : WriteResult

def perform (w : BufioT) (call : Call) : Put :=
  match call.op with
  | .xputbuf data => cprXputbuf w data call.io
  | .cputbuf ch => cprCputbuf w ch call.io
  | .sputbuf text => cprSputbuf w text call.io
  | .flushbuf => cprFlushbuf w call.io

/-- The bytes a put that returns true stands for. -/
def Op.bytes : Op → List UInt8
  | xputbuf data => data.getD []
  | cputbuf ch => [ch]
  | sputbuf text => (text.map CString.bytes).getD []
  | flushbuf => []

/-- A buffer and the history so far: the bytes the descriptor has taken, the bytes
of the puts that returned true, and for every flush that returned true the bytes
that were pending and the bytes that `write()` took. -/
structure State where
  buf : BufioT
  taken : List UInt8
  accepted : List UInt8
  flushed : List (List UInt8 × List UInt8)

def step (s : State) (call : Call) : State :=
  let put := perform s.buf call
  { buf := put.buf
    taken := s.taken ++ put.taken
    accepted := s.accepted ++ if put.ok then call.op.bytes else []
    flushed := s.flushed ++
      match call.op with
      | .flushbuf => if put.ok then [(s.buf.pending, put.taken)] else []
      | _ => [] }

/-- Nothing is lost: taken and pending bytes are the initially pending ones and all
accepted ones, and a flush that returned true had everything taken. -/
def Faithful (initial : List UInt8) (s : State) : Prop :=
  s.taken ++ s.buf.pending = initial ++ s.accepted ∧ ∀ pair ∈ s.flushed, pair.1 = pair.2

/-- The call comes to its `write()`. -/
def reachesWrite (w : BufioT) : Op → Bool
  | .xputbuf none => false
  | .xputbuf (some data) =>
      decide (data.length ≤ w.bufsize) && decide (w.bufsize < data.length + w.put)
  | .cputbuf _ => decide (1 ≤ w.bufsize) && decide (w.bufsize < 1 + w.put)
  | .sputbuf none => false
  | .sputbuf (some text) =>
      decide (text.length ≤ w.bufsize) && decide (w.bufsize < text.length + w.put)
  | .flushbuf => decide (w.put ≠ 0)

/-- The call does not come to a `write()` that reports an error. -/
def NoWriteError (s : State) (call : Call) : Prop :=
  reachesWrite s.buf call.op = true → call.io ≠ .error

instance (s : State) (call : Call) : Decidable (NoWriteError s call) :=
  inferInstanceAs (Decidable (_ → _))

theorem outAt_add (w : BufioT) (i n : Nat) : w.outAt (i + n) = w.outAt i + n :=
  (Nat.add_assoc _ _ _).symm

theorem pending_empty {w : BufioT} (empty : w.put = 0) : w.pending = [] := by
  simp [BufioT.pending, empty]

/-- A count that is not below the pending bytes is all of them. -/
theorem takes_all {n put : Nat} (all : (WriteResult.count n).below put = false) :
    (WriteResult.count n).takes put = put := by
  have whole := of_decide_eq_false all
  unfold WriteResult.takes
  dsimp only
  omega

/-- A flush whose `write()` does not fail: what was taken and what is still pending
are the bytes that were pending, and true means that all were taken. -/
theorem flush_count (w : BufioT) (n : Nat) :
    (cprFlushbuf w (.count n)).taken ++ (cprFlushbuf w (.count n)).buf.pending = w.pending ∧
    ((cprFlushbuf w (.count n)).ok = true →
      (cprFlushbuf w (.count n)).buf.put = 0 ∧ (cprFlushbuf w (.count n)).taken = w.pending) := by
  unfold cprFlushbuf
  split
  · exact ⟨rfl, fun failed => by cases failed⟩
  · dsimp only
    cases partly : (WriteResult.count n).below w.put with
    | true =>
        refine ⟨?_, fun failed => by cases failed⟩
        have some_left : (WriteResult.count n).takes w.put ≤ w.put := Nat.min_le_right _ _
        unfold BufioT.pending
        have kept := w.mem.slice_move (w.outAt 0) (w.outAt ((WriteResult.count n).takes w.put))
          (w.put - (WriteResult.count n).takes w.put)
        rw [w.mem.slice_split (w.outAt 0) some_left, ← outAt_add, Nat.zero_add]
        exact congrArg _ kept
    | false =>
        rw [if_neg Bool.false_ne_true, if_neg Bool.false_ne_true, takes_all partly]
        refine ⟨?_, fun _ => ⟨rfl, rfl⟩⟩
        rw [pending_empty rfl, List.append_nil]
        rfl

/-- A flush whose `write()` fails forgets the pending bytes and returns true. -/
theorem flush_error {w : BufioT} (some_pending : w.put ≠ 0) :
    cprFlushbuf w .error = ⟨{ w with put := 0 }, true, []⟩ := by
  simp [cprFlushbuf, some_pending, WriteResult.below, WriteResult.takes]

theorem flush_bound {w : BufioT} (io : WriteResult) (bound : w.put ≤ w.bufsize) :
    (cprFlushbuf w io).buf.bufsize = w.bufsize ∧
    (cprFlushbuf w io).buf.put ≤ (cprFlushbuf w io).buf.bufsize := by
  unfold cprFlushbuf
  split
  · exact ⟨rfl, bound⟩
  · dsimp only
    split
    · exact ⟨rfl, Nat.le_trans (Nat.sub_le _ _) bound⟩
    · exact ⟨rfl, Nat.zero_le _⟩

/-- What fits is appended to the pending bytes. -/
theorem putCopy_spec (w : BufioT) (data : List UInt8) (fits : data.length + w.put ≤ w.bufsize) :
    (putCopy w data).pending = w.pending ++ data ∧
    (putCopy w data).put ≤ (putCopy w data).bufsize := by
  have room : ¬ data.length > w.bufsize - w.put := by omega
  constructor
  · unfold putCopy BufioT.pending
    dsimp only
    rw [if_neg room, Memory.slice_append]
    have behind : w.outAt w.put = w.outAt 0 + w.put := by rw [← outAt_add, Nat.zero_add]
    change (w.mem.write (w.outAt w.put) data).slice (w.outAt 0) w.put ++
      (w.mem.write (w.outAt w.put) data).slice (w.outAt 0 + w.put) data.length = _
    rw [← behind, Memory.slice_write,
      Memory.slice_write_outside _ _ (.inl (Nat.le_of_eq behind.symm))]
  · change w.put + data.length ≤ w.bufsize
    omega

/-- The bytes of a put make it necessary to flush before them. -/
def needsFlush (w : BufioT) (data : List UInt8) : Bool :=
  decide (data.length ≤ w.bufsize) && decide (w.bufsize < data.length + w.put)

theorem xputbuf_bound {w : BufioT} (data : List UInt8) (io : WriteResult)
    (bound : w.put ≤ w.bufsize) :
    (cprXputbuf w (some data) io).buf.put ≤ (cprXputbuf w (some data) io).buf.bufsize := by
  unfold cprXputbuf
  dsimp only
  obtain ⟨size, flushed⟩ := flush_bound io bound
  split
  · exact bound
  · split
    · split
      · rename_i fits _ ok
        have emptied : (cprFlushbuf w io).buf.put = 0 := by
          cases io with
          | error =>
              have some_pending : w.put ≠ 0 := by omega
              rw [flush_error some_pending]
          | count n => exact ((flush_count w n).2 ok).1
        exact (putCopy_spec _ _ (by omega)).2
      · exact flushed
    · exact (putCopy_spec _ _ (by omega)).2

/-- A put without a failed `write()` loses nothing. -/
theorem xputbuf_faithful {w : BufioT} {data : List UInt8} {io : WriteResult}
    (bound : w.put ≤ w.bufsize) (noError : needsFlush w data = true → io ≠ .error) :
    (cprXputbuf w (some data) io).taken ++ (cprXputbuf w (some data) io).buf.pending =
      w.pending ++ if (cprXputbuf w (some data) io).ok then data else [] := by
  unfold cprXputbuf
  dsimp only
  split
  · simp
  · rename_i fits
    split
    · rename_i full
      have flushes : needsFlush w data = true := by
        simp only [needsFlush, Bool.and_eq_true, decide_eq_true_eq]
        omega
      obtain ⟨n, rfl⟩ : ∃ n, io = .count n := by
        cases io with
        | error => exact absurd rfl (noError flushes)
        | count n => exact ⟨n, rfl⟩
      obtain ⟨balance, whole⟩ := flush_count w n
      obtain ⟨size, _⟩ := flush_bound (.count n) bound
      split
      · rename_i ok
        obtain ⟨emptied, all⟩ := whole ok
        rw [(putCopy_spec _ _ (by omega)).1, pending_empty emptied, all]
        rfl
      · simpa using balance
    · simp [(putCopy_spec w data (by omega)).1]

/-- A put whose `write()` fails returns true with only its own bytes pending. -/
theorem xputbuf_error {w : BufioT} {data : List UInt8}
    (flushes : needsFlush w data = true) :
    (cprXputbuf w (some data) .error).taken = [] ∧
    (cprXputbuf w (some data) .error).buf.pending = data ∧
    (cprXputbuf w (some data) .error).ok = true ∧ w.put ≠ 0 := by
  simp only [needsFlush, Bool.and_eq_true, decide_eq_true_eq] at flushes
  obtain ⟨fits, full⟩ := flushes
  have some_pending : w.put ≠ 0 := by omega
  unfold cprXputbuf
  dsimp only
  rw [if_neg (by omega), if_pos (by omega), flush_error some_pending]
  refine ⟨rfl, ?_, rfl, some_pending⟩
  have copied := (putCopy_spec { w with put := 0 } data (by simpa using fits)).1
  simpa [BufioT.pending] using copied

/-! ## One call -/

/-- The data a put hands to `cpr_xputbuf`. -/
def Op.data (w : BufioT) : Op → Option (List UInt8)
  | xputbuf data => data
  | cputbuf ch => some [ch]
  | sputbuf text => text.map fun text => text.bytes.take (cprStrlen text.char (w.bufsize + 1))
  | flushbuf => none

theorem perform_put (w : BufioT) {call : Call} (put : call.op ≠ .flushbuf) :
    perform w call = cprXputbuf w (call.op.data w) call.io := by
  obtain ⟨op, io⟩ := call
  cases op with
  | xputbuf data => rfl
  | cputbuf ch => rfl
  | sputbuf text => cases text <;> rfl
  | flushbuf => exact absurd rfl put

/-- A text that fits is handed over whole, and one that does not is refused. -/
theorem sputbuf_data (w : BufioT) (text : CString) :
    (text.length ≤ w.bufsize ∧
      text.bytes.take (cprStrlen text.char (w.bufsize + 1)) = text.bytes) ∨
    (w.bufsize < text.length ∧
      w.bufsize < (text.bytes.take (cprStrlen text.char (w.bufsize + 1))).length) := by
  rw [cprStrlen_char, List.length_take]
  have length : text.length = text.bytes.length := rfl
  by_cases fits : text.length ≤ w.bufsize
  · exact .inl ⟨fits, List.take_of_length_le (by omega)⟩
  · exact .inr ⟨by omega, by omega⟩

/-- The bytes of a put and its flush, in terms of the data it hands over: either it
hands over its own bytes, or it is refused without a `write()`. -/
theorem put_data (w : BufioT) {op : Op} (put : op ≠ .flushbuf) :
    (∃ data, op.data w = some data ∧ op.bytes = data ∧
      reachesWrite w op = needsFlush w data) ∨
    (reachesWrite w op = false ∧
      ∀ io, cprXputbuf w (op.data w) io = ⟨w, false, []⟩) := by
  cases op with
  | xputbuf data =>
      cases data with
      | none => exact .inr ⟨rfl, fun _ => rfl⟩
      | some data => exact .inl ⟨data, rfl, rfl, rfl⟩
  | cputbuf ch => exact .inl ⟨[ch], rfl, rfl, rfl⟩
  | sputbuf text =>
      cases text with
      | none => exact .inr ⟨rfl, fun _ => rfl⟩
      | some text =>
          rcases sputbuf_data w text with ⟨fits, whole⟩ | ⟨long, refused⟩
          · exact .inl ⟨text.bytes, congrArg some whole, rfl, rfl⟩
          · refine .inr ⟨?_, fun io => ?_⟩
            · simp only [reachesWrite, Bool.and_eq_false_iff, decide_eq_false_iff_not]
              exact .inl (by omega)
            · simp only [Op.data, Option.map_some, cprXputbuf, if_pos refused]
  | flushbuf => exact absurd rfl put

/-- A call that balances keeps the history faithful. -/
theorem faithful_step {initial : List UInt8} {s : State} {call : Call}
    (faithful : Faithful initial s)
    (balance : (perform s.buf call).taken ++ (perform s.buf call).buf.pending =
      s.buf.pending ++ if (perform s.buf call).ok then call.op.bytes else [])
    (whole : (perform s.buf call).ok = true → call.op = .flushbuf →
      s.buf.pending = (perform s.buf call).taken) :
    Faithful initial (step s call) := by
  constructor
  · change s.taken ++ (perform s.buf call).taken ++ (perform s.buf call).buf.pending =
      initial ++ (s.accepted ++ if (perform s.buf call).ok then call.op.bytes else [])
    rw [List.append_assoc, balance, ← List.append_assoc, faithful.1, List.append_assoc]
  · intro pair member
    rcases List.mem_append.mp member with earlier | now
    · exact faithful.2 pair earlier
    · cases op : call.op with
      | flushbuf =>
          rw [op] at now
          cases ok : (perform s.buf call).ok with
          | false =>
              simp only [ok, Bool.false_eq_true, if_false] at now
              cases now
          | true =>
              simp only [ok, if_true] at now
              rw [List.mem_singleton.mp now]
              exact whole ok op
      | _ =>
          rw [op] at now
          cases now

/-- A call that drops pending bytes spoils the history for good. -/
theorem unfaithful_step {initial : List UInt8} {s : State} {call : Call}
    (faithful : Faithful initial s) (some_pending : s.buf.put ≠ 0)
    (dropped : (perform s.buf call).taken = [])
    (own : (perform s.buf call).buf.pending =
      if (perform s.buf call).ok then call.op.bytes else []) :
    ¬ Faithful initial (step s call) := by
  rintro ⟨equation, _⟩
  change s.taken ++ (perform s.buf call).taken ++ (perform s.buf call).buf.pending =
    initial ++ (s.accepted ++ if (perform s.buf call).ok then call.op.bytes else []) at equation
  rw [dropped, own, List.append_nil, ← List.append_assoc, ← faithful.1] at equation
  have kept := List.append_cancel_right equation
  have lengths := congrArg List.length kept
  simp only [List.length_append, BufioT.pending, Memory.slice_length] at lengths
  omega

/-- The bytes pending never outgrow the buffer. -/
theorem perform_bound {w : BufioT} (call : Call) (bound : w.put ≤ w.bufsize) :
    (perform w call).buf.put ≤ (perform w call).buf.bufsize := by
  by_cases flush : call.op = .flushbuf
  · have performed : perform w call = cprFlushbuf w call.io := by
      unfold perform
      rw [flush]
    rw [performed]
    exact (flush_bound call.io bound).2
  · rw [perform_put w flush]
    cases call.op.data w with
    | none => exact bound
    | some data => exact xputbuf_bound data call.io bound

theorem flush_faithful_iff {initial : List UInt8} {s : State} {call : Call}
    (flush : call.op = .flushbuf) (faithful : Faithful initial s) :
    Faithful initial (step s call) ↔ NoWriteError s call := by
  have performed : perform s.buf call = cprFlushbuf s.buf call.io := by
    unfold perform
    rw [flush]
  unfold NoWriteError
  rw [flush]
  simp only [reachesWrite, decide_eq_true_eq]
  by_cases empty : s.buf.put = 0
  · have nothing : cprFlushbuf s.buf call.io = ⟨s.buf, false, []⟩ := by
      unfold cprFlushbuf
      rw [if_pos empty]
    refine ⟨fun _ some_pending => absurd empty some_pending, fun _ => ?_⟩
    apply faithful_step faithful
    · rw [performed, nothing]
      simp
    · rw [performed, nothing]
      intro failed
      cases failed
  · cases io : call.io with
    | error =>
        refine ⟨fun kept => ?_, fun noError => absurd rfl (noError empty)⟩
        rw [io, flush_error empty] at performed
        refine absurd kept (unfaithful_step faithful empty ?_ ?_)
        · rw [performed]
        · rw [performed, flush]
          exact pending_empty rfl
    | count n =>
        obtain ⟨balance, whole⟩ := flush_count s.buf n
        rw [io] at performed
        refine ⟨fun _ _ => by simp, fun _ => ?_⟩
        apply faithful_step faithful
        · rw [performed, balance, flush]
          simp [Op.bytes]
        · rw [performed]
          exact fun ok _ => (whole ok).2.symm

theorem put_faithful_iff {initial : List UInt8} {s : State} {call : Call}
    (put : call.op ≠ .flushbuf) (bound : s.buf.put ≤ s.buf.bufsize)
    (faithful : Faithful initial s) :
    Faithful initial (step s call) ↔ NoWriteError s call := by
  have performed := perform_put s.buf put
  unfold NoWriteError
  rcases put_data s.buf put with ⟨data, handed, own, reaches⟩ | ⟨refused, untouched⟩
  · rw [handed] at performed
    rw [reaches]
    by_cases failed : needsFlush s.buf data = true ∧ call.io = .error
    · obtain ⟨flushes, error⟩ := failed
      rw [error] at performed
      obtain ⟨dropped, copied, ok, some_pending⟩ := xputbuf_error flushes
      refine ⟨fun kept => ?_, fun noError => absurd error (noError flushes)⟩
      refine absurd kept (unfaithful_step faithful some_pending ?_ ?_)
      · rw [performed, dropped]
      · rw [performed, copied, ok, own]
        rfl
    · have noError : needsFlush s.buf data = true → call.io ≠ .error :=
        fun flushes error => failed ⟨flushes, error⟩
      refine ⟨fun _ => noError, fun _ => ?_⟩
      apply faithful_step faithful
      · rw [performed, own]
        exact xputbuf_faithful bound noError
      · exact fun _ flush => absurd flush put
  · rw [refused]
    refine ⟨fun _ never => Bool.noConfusion never, fun _ => ?_⟩
    apply faithful_step faithful
    · rw [performed, untouched]
      simp
    · exact fun _ flush => absurd flush put

/-- From any buffer with `put <= bufsize`, a sequence of write-side calls loses
nothing in any state it leads through exactly when none of them comes to a
`write()` that reports an error. -/
theorem writer_fidelity_iff (w : BufioT) (bound : w.put ≤ w.bufsize) (calls : List Call) :
    Along step (Faithful w.pending) ⟨w, [], [], []⟩ calls ↔
      Throughout step NoWriteError ⟨w, [], [], []⟩ calls := by
  refine along_iff_throughout (fun s => s.buf.put ≤ s.buf.bufsize) ?_ ?_ bound ?_ calls
  · intro s call bound _ _
    exact perform_bound call bound
  · intro s call bound faithful
    by_cases flush : call.op = .flushbuf
    · exact flush_faithful_iff flush faithful
    · exact put_faithful_iff flush bound faithful
  · exact ⟨by simp, fun pair member => by cases member⟩

/-- Three bytes through a buffer of two, over a short write. -/
theorem writer_fidelity_iff_short :
    Along step (Faithful []) ⟨⟨2, 0, 0, 0, fun _ => 0⟩, [], [], []⟩
      [⟨.xputbuf (some [1, 2]), .error⟩, ⟨.cputbuf 3, .count 1⟩, ⟨.cputbuf 3, .count 1⟩,
        ⟨.flushbuf, .count 2⟩] := by
  refine (writer_fidelity_iff ⟨2, 0, 0, 0, fun _ => 0⟩ (by decide) _).mpr ?_
  exact ⟨by decide, by decide, by decide, by decide, trivial⟩

/-- One pending byte and a failing `write()`: the flush returns true and the byte is
gone. -/
theorem writer_loses_on_error :
    ¬ ∀ calls : List Call,
      Along step (Faithful []) ⟨⟨2, 0, 0, 0, fun _ => 0⟩, [], [], []⟩ calls := by
  intro claimed
  have lost := claimed [⟨.cputbuf 7, .error⟩, ⟨.flushbuf, .error⟩]
  have equation := lost.2.2.1
  exact absurd equation (by decide)

end CprFormal.Bufio.Writer
