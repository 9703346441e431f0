import CprFormal.Bufio.Duplex

/-!
# Two peers

Each side of a connection reads and writes through one `bufio_t`.  A `write()` may
take any part of what it is given and a `read()` may deliver any front part of what
is on the way, so a byte can be pending, on the way or unread; whichever it is, the
other side consumes exactly what this side had accepted, in order, in both directions
at once.
-/

namespace CprFormal.Bufio.Conversation

open Function (update)
open CprFormal.Library.FlatMemory CprFormal.Library.Transition
open CprFormal.Bufio.Model
open CprFormal.Bufio.Reader (Cursors)
open CprFormal.Bufio.Writer (outAt_add flush_count pending_empty perform_put put_data
  xputbuf_faithful)
open CprFormal.Bufio.WriteArea (perform reachesWrite)

/-! ## What a write-side call balances -/

/-- Bytes stored behind the pending ones; the cursor moves past the first `n` of them. -/
theorem pending_store (w : BufioT) (bytes : List UInt8) {n : Nat} (some_ : n ≤ bytes.length) :
    ({ w with mem := w.mem.write (w.outAt w.put) bytes, put := w.put + n } : BufioT).pending =
      w.pending ++ bytes.take n := by
  have behind : w.outAt w.put = w.outAt 0 + w.put := by rw [← outAt_add, Nat.zero_add]
  unfold BufioT.pending
  change (w.mem.write (w.outAt w.put) bytes).slice (w.outAt 0) (w.put + n) = _
  rw [Memory.slice_append, ← behind, Memory.slice_write_take _ _ _ some_,
    Memory.slice_write_outside _ _ (.inl (Nat.le_of_eq behind.symm))]

/-- A formatted put appends its text, or nothing. -/
theorem fmtCopy_balance (w : BufioT) (estimated : Nat) (out : Formatted) (taken : List UInt8) :
    (fmtCopy w estimated out taken).taken = taken ∧
    (fmtCopy w estimated out taken).buf.pending =
      w.pending ++ if (fmtCopy w estimated out taken).ok then
        (WriteArea.Op.fmtbuf estimated (some out)).bytes else [] := by
  have nothing (bytes : List UInt8) :
      ({ w with mem := w.mem.write (w.outAt w.put) bytes } : BufioT).pending = w.pending := by
    have stored := pending_store w bytes (Nat.zero_le _)
    rwa [List.take_zero, List.append_nil] at stored
  unfold fmtCopy
  cases out with
  | error stored => exact ⟨rfl, by simpa using nothing _⟩
  | text bytes =>
      dsimp only
      split
      · exact ⟨rfl, by simpa using nothing _⟩
      · rename_i short
        refine ⟨rfl, ?_⟩
        have whole : bytes.take (estimated - 1) = bytes := List.take_of_length_le (by omega)
        have stored := pending_store w (bytes ++ [0]) (show bytes.length ≤ _ by simp)
        rw [List.take_left' rfl] at stored
        simpa [Formatted.stores, whole, WriteArea.Op.bytes] using stored

/-- What a call had taken and what is pending behind it. -/
def Balanced (w : BufioT) (put : Put) (bytes : List UInt8) : Prop :=
  put.taken ++ put.buf.pending = w.pending ++ if put.ok then bytes else []

theorem Balanced.refused (w : BufioT) (bytes : List UInt8) : Balanced w ⟨w, false, []⟩ bytes := by
  simp [Balanced]

theorem fmtbuf_balance {w : BufioT} {estimated : Nat} {fmt : Option Formatted} {io : WriteResult}
    (noError : reachesWrite w (.fmtbuf estimated fmt) = true → io ≠ .error) :
    Balanced w (cprFmtbuf w estimated fmt io) (WriteArea.Op.fmtbuf estimated fmt).bytes := by
  unfold cprFmtbuf
  cases fmt with
  | none => exact .refused w _
  | some out =>
      dsimp only
      split
      · exact .refused w _
      · rename_i short
        rw [not_or] at short
        split
        · rename_i full
          have reaches : reachesWrite w (.fmtbuf estimated (some out)) = true := by
            simp only [reachesWrite, Bool.and_eq_true, decide_eq_true_eq]
            omega
          obtain ⟨n, rfl⟩ : ∃ n, io = .count n := by
            cases io with
            | error => exact absurd rfl (noError reaches)
            | count n => exact ⟨n, rfl⟩
          obtain ⟨balance, whole⟩ := flush_count w n
          split
          · rename_i ok
            obtain ⟨emptied, all⟩ := whole ok
            obtain ⟨taken, pending⟩ := fmtCopy_balance
              (cprFlushbuf w (.count n)).buf estimated out (cprFlushbuf w (.count n)).taken
            unfold Balanced
            rw [taken, pending, pending_empty emptied, all, List.nil_append]
          · unfold Balanced
            simpa using balance
        · obtain ⟨taken, pending⟩ := fmtCopy_balance w estimated out []
          unfold Balanced
          rw [taken, pending, List.nil_append]

/-- No write-side call without a failed `write()` loses a byte. -/
theorem perform_balance {w : BufioT} {call : WriteArea.Call} (bound : w.put ≤ w.bufsize)
    (noError : reachesWrite w call.op = true → call.io ≠ .error) :
    Balanced w (perform w call) call.op.bytes := by
  obtain ⟨op, io⟩ := call
  cases op with
  | fmtbuf estimated fmt => exact fmtbuf_balance noError
  | plain op =>
      by_cases flush : op = .flushbuf
      · subst flush
        change Balanced w (cprFlushbuf w io) []
        by_cases empty : w.put = 0
        · unfold cprFlushbuf
          rw [if_pos empty]
          exact .refused w _
        · cases io with
          | error => exact absurd rfl (noError (by simpa [reachesWrite, Writer.reachesWrite]))
          | count n =>
              unfold Balanced
              rw [(flush_count w n).1]
              simp
      · change Balanced w (Writer.perform w ⟨op, io⟩) op.bytes
        rw [perform_put w flush]
        rcases put_data w flush with ⟨data, handed, own, reaches⟩ | ⟨_, untouched⟩
        · rw [handed, own]
          exact xputbuf_faithful bound fun flushes =>
            noError (show Writer.reachesWrite w op = true by rw [reaches, flushes])
        · rw [untouched]
          exact .refused w _

/-! ## The connection -/

/-- One side: its buffer with the history of its reads, the bytes that `write()` has
taken and those of the puts that returned true. -/
structure Peer where
  reader : Reader.State
  taken : List UInt8
  accepted : List UInt8

/-- Both sides, and the bytes on the way from each of them. -/
structure Net where
  peer : Bool → Peer
  wire : Bool → List UInt8

inductive Event where
  | read (side : Bool) (call : Reader.Call)
  | write (side : Bool) (call : WriteArea.Call)

/-- A write-side call adds what `write()` took to the bytes on the way. -/
def wrote (p : Peer) (call : WriteArea.Call) : Peer :=
  let put := perform p.reader.buf call
  { reader := { p.reader with buf := put.buf }
    taken := p.taken ++ put.taken
    accepted := p.accepted ++ if put.ok then call.op.bytes else [] }

/-- A step of one side.  What `read()` delivers is a front part of what the other side
has on the way. -/
inductive Step : Net → Event → Net → Prop where
  | read {s : Net} (side : Bool) (call : Reader.Call) {reader : Reader.State}
      {got rest : List UInt8} (stepped : Reader.step (s.peer side).reader call = some reader)
      (delivered : reader.delivered = (s.peer side).reader.delivered ++ got)
      (front : s.wire (!side) = got ++ rest) :
      Step s (.read side call)
        { peer := update s.peer side { s.peer side with reader := reader }
          wire := update s.wire (!side) rest }
  | write {s : Net} (side : Bool) (call : WriteArea.Call) :
      Step s (.write side call)
        { peer := update s.peer side (wrote (s.peer side) call)
          wire := update s.wire side
            (s.wire side ++ (perform (s.peer side).reader.buf call).taken) }

/-- No `write()` of the run reports an error. -/
def NoWriteError (s : Net) : Event → Prop
  | .read _ _ => True
  | .write side call =>
      reachesWrite (s.peer side).reader.buf call.op = true → call.io ≠ .error

/-- Two buffers with nothing to read, and whatever is pending in them. -/
def system (pending : Bool → List UInt8) : System Net Event where
  init s := s.wire = (fun _ => []) ∧ ∀ side, (s.peer side).taken = [] ∧
    (s.peer side).accepted = [] ∧ (s.peer side).reader.scanning = none ∧
    (s.peer side).reader.delivered = [] ∧ (s.peer side).reader.consumed = [] ∧
    (s.peer side).reader.asked = [] ∧ (s.peer side).reader.buf.start = 0 ∧
    (s.peer side).reader.buf.end_ = 0 ∧
    (s.peer side).reader.buf.put ≤ (s.peer side).reader.buf.bufsize ∧
    (s.peer side).reader.buf.pending = pending side
  step := Step

/-- What holds of one side in every run. -/
structure Sound (pending : List UInt8) (p : Peer) : Prop where
  duplex : Duplex.Inv p.reader
  written : p.taken ++ p.reader.buf.pending = pending ++ p.accepted

structure Inv (pending : Bool → List UInt8) (s : Net) : Prop where
  sound : ∀ side, Sound (pending side) (s.peer side)
  wire : ∀ side, (s.peer side).taken = (s.peer (!side)).reader.delivered ++ s.wire side

/-- A read-side call leaves the pending bytes alone. -/
theorem read_sound {pending : List UInt8} {p : Peer} (sound : Sound pending p)
    {call : Reader.Call} {reader : Reader.State}
    (stepped : Reader.step p.reader call = some reader) :
    Sound pending { p with reader := reader } := by
  have keeps := Duplex.read_keeps sound.duplex.reader.cursors stepped
  refine ⟨Duplex.step_inv sound.duplex (.read call stepped), ?_⟩
  have kept : reader.buf.pending = p.reader.buf.pending := by
    unfold BufioT.pending
    rw [WriteArea.outAt_congr keeps.bufsize, keeps.put]
    exact keeps.mem.slice (.inr (Duplex.terminator_below _))
  change p.taken ++ reader.buf.pending = _
  rw [kept]
  exact sound.written

/-- A write-side call without a failed `write()` keeps the account of its side. -/
theorem write_sound {pending : List UInt8} {p : Peer} (sound : Sound pending p)
    {call : WriteArea.Call}
    (noError : reachesWrite p.reader.buf call.op = true → call.io ≠ .error) :
    Sound pending (wrote p call) := by
  refine ⟨Duplex.step_inv sound.duplex (.write call), ?_⟩
  have balance : Balanced p.reader.buf (perform p.reader.buf call) call.op.bytes :=
    perform_balance sound.duplex.put noError
  unfold Balanced at balance
  change p.taken ++ (perform p.reader.buf call).taken ++ (perform p.reader.buf call).buf.pending =
    pending ++ (p.accepted ++ _)
  rw [List.append_assoc, balance, ← List.append_assoc, sound.written, List.append_assoc]

/-- What holds of a side and of the opposite one holds of both. -/
theorem both_sides {P : Bool → Prop} (side : Bool) (own : P side) (other : P (!side)) (i : Bool) :
    P i := by
  cases i <;> cases side <;> first | exact own | exact other

theorem step_inv {pending : Bool → List UInt8} {s s' : Net} {e : Event} (inv : Inv pending s)
    (step : Step s e s') (noError : NoWriteError s e) : Inv pending s' := by
  cases step with
  | @read side call reader got rest stepped delivered front =>
      have opposite : (!side) ≠ side := by cases side <;> decide
      refine ⟨both_sides side ?_ ?_, both_sides side ?_ ?_⟩
      · simpa using read_sound (inv.sound side) stepped
      · simpa [opposite] using inv.sound (!side)
      · simpa [opposite, opposite.symm] using inv.wire side
      · have before := inv.wire (!side)
        rw [front] at before
        simpa [opposite, delivered] using before
  | write side call =>
      have opposite : (!side) ≠ side := by cases side <;> decide
      refine ⟨both_sides side ?_ ?_, both_sides side ?_ ?_⟩
      · simpa using write_sound (inv.sound side) noError
      · simpa [opposite] using inv.sound (!side)
      · have before := inv.wire side
        simp [opposite, wrote, before]
      · have before := inv.wire (!side)
        simpa [opposite, wrote] using before

theorem run_inv {pending : Bool → List UInt8} {trace : List Event} {s : Net}
    (run : Run ((system pending).restrict NoWriteError) trace s) : Inv pending s := by
  refine Run.invariant (fun _ s => Inv pending s) ?_ ?_ run
  · rintro s ⟨wire, fresh⟩
    refine ⟨fun i => ?_, fun i => ?_⟩
    · obtain ⟨taken, accepted, idle, delivered, consumed, asked, start, end_, put, own⟩ := fresh i
      refine ⟨⟨⟨⟨by omega, by omega⟩, ?_, ?_, ?_⟩, put⟩, ?_⟩
      · rw [delivered, consumed]
        simp [BufioT.unread, start, end_]
      · intro n member
        rw [asked] at member
        cases member
      · intro line running
        rw [idle] at running
        cases running
      · rw [taken, accepted, own]
        simp
    · obtain ⟨_, _, _, delivered, _⟩ := fresh (!i)
      rw [(fresh i).1, delivered, wire]
      rfl
  · rintro _ s e s' inv ⟨step, noError⟩
    exact step_inv inv step noError

/-- In every run of both sides in which no `write()` fails, and in each direction, the
bytes accepted by the puts of one side, behind those that were pending at the start,
are the bytes the other side has consumed, then those unread in its buffer, those on
the way, and those still pending: none is lost, repeated or out of order. -/
theorem conversation {pending : Bool → List UInt8} {trace : List Event} {s : Net}
    (run : Run ((system pending).restrict NoWriteError) trace s) (side : Bool) :
    pending side ++ (s.peer side).accepted =
      (s.peer (!side)).reader.consumed ++ (s.peer (!side)).reader.buf.unread ++
        s.wire side ++ (s.peer side).reader.buf.pending := by
  have inv := run_inv run
  have stream := (inv.sound (!side)).duplex.reader.stream
  rw [← (inv.sound side).written, inv.wire side, stream]

/-- Of two bytes put by one side, a short write sends the first and the other side
takes it. -/
theorem conversation_short :
    ∃ (trace : List Event) (s : Net),
      Run ((system fun _ => []).restrict NoWriteError) trace s ∧
      (s.peer false).accepted = [1, 2] ∧ (s.peer true).reader.consumed = [1] ∧
      [] ++ (s.peer false).accepted =
        (s.peer true).reader.consumed ++ (s.peer true).reader.buf.unread ++
          s.wire false ++ (s.peer false).reader.buf.pending := by
  have start : Run ((system fun _ => []).restrict NoWriteError) []
      ⟨fun _ => ⟨⟨⟨4, 0, 0, 0, fun _ => 0⟩, none, [], [], []⟩, [], []⟩, fun _ => []⟩ :=
    .start ⟨rfl, fun _ => ⟨rfl, rfl, rfl, rfl, rfl, rfl, rfl, rfl, Nat.zero_le _, rfl⟩⟩
  have stored := start.next ⟨.write false ⟨.plain (.xputbuf (some [1, 2])), .count 0⟩,
    fun _ error => by cases error⟩
  have flushed := stored.next ⟨.write false ⟨.plain .flushbuf, .count 1⟩,
    fun _ error => by cases error⟩
  have taken := flushed.next ⟨.read true (.xgetbuf 1 fun _ => .bytes [1])
    (show Reader.step _ (.xgetbuf 1 fun _ => .bytes [1]) = some _ from rfl)
    (show _ = [] ++ [1] from rfl) (show _ = [1] ++ [] from rfl), trivial⟩
  exact ⟨_, _, taken, rfl, rfl, conversation taken false⟩

end CprFormal.Bufio.Conversation
