import CprFormal.Bufio.Model
import CprFormal.Library.Transition

/-!
# The read side of a buffered stream

The bytes that `read()` has delivered are the bytes that were consumed followed
by the unread part of the buffer, through every mixture of read-side calls and at
every pass of the loop of `cpr_lgetbuf`.
-/

namespace CprFormal.Bufio.Reader

open CprFormal.Library.FlatMemory CprFormal.Library.Search CprFormal.Library.Transition
open CprFormal.Strchar.Strlen
open CprFormal.Bufio.Model
open CprFormal.Bufio.Model.BufioT (bufAt)

/-- `start <= end <= bufsize`. -/
structure Cursors (r : BufioT) : Prop where
  start : r.start ≤ r.end_
  end_ : r.end_ ≤ r.bufsize

theorem bufAt_add (i n : Nat) : bufAt (i + n) = bufAt i + n :=
  (Nat.add_assoc _ _ _).symm

theorem unread_length (r : BufioT) : r.unread.length = r.end_ - r.start :=
  Memory.slice_length _ _ _

/-! ## Filling and taking -/

@[simp]
theorem terminate_unread (r : BufioT) : r.terminate.unread = r.unread := by
  unfold BufioT.unread BufioT.terminate
  dsimp only
  apply Memory.slice_set_outside
  unfold bufAt
  omega

/-- Compacting moves the unread bytes to the front and keeps them. -/
theorem compact_spec {r : BufioT} (cursors : Cursors r) (request : Nat) :
    Cursors (compact r request) ∧ (compact r request).unread = r.unread ∧
    (compact r request).bufsize = r.bufsize ∧ (compact r request).start ≤ r.start := by
  obtain ⟨hstart, hend⟩ := cursors
  unfold compact
  split
  · refine ⟨⟨Nat.zero_le _, by dsimp only; omega⟩, ?_, rfl, Nat.zero_le _⟩
    unfold BufioT.unread
    exact Memory.slice_move r.mem _ _ _
  · exact ⟨⟨hstart, hend⟩, rfl, rfl, Nat.le_refl _⟩

/-- A `read()` that fails. -/
structure Failed (r : BufioT) (refill : Bool) (fill : Fill) : Prop where
  ok : fill.ok = refill
  start : fill.buf.start = r.start
  end_ : fill.buf.end_ = r.end_
  delivered : fill.delivered = []

/-- A `read()` that delivers `chunk`, or nothing at the end. -/
structure Delivered (r : BufioT) (request : Nat) (chunk : List UInt8) (fill : Fill) :
    Prop where
  ok : fill.ok = true ↔ chunk ≠ [] ∧ request ≤ r.end_ + chunk.length - r.start
  start : fill.buf.start = r.start
  end_ : fill.buf.end_ = r.end_ + chunk.length
  delivered : fill.delivered = chunk

theorem fillRead_failed {r : BufioT} (request : Nat) (refill : Bool) {io : Nat → ReadResult}
    (answer : io (r.bufsize - r.end_) = .error) :
    Failed r refill (fillRead r request refill io) := by
  unfold fillRead
  dsimp only
  rw [answer]
  exact ⟨rfl, rfl, rfl, rfl⟩

theorem fillRead_delivered {r : BufioT} (request : Nat) (refill : Bool)
    {io : Nat → ReadResult} {chunk : List UInt8}
    (answer : io (r.bufsize - r.end_) = .bytes chunk) :
    Delivered r request (chunk.take (r.bufsize - r.end_)) (fillRead r request refill io) := by
  unfold fillRead
  dsimp only
  rw [answer]
  dsimp only
  cases chunk.take (r.bufsize - r.end_) with
  | nil => exact ⟨by simp, rfl, rfl, rfl⟩
  | cons b bs =>
      refine ⟨?_, rfl, rfl, rfl⟩
      simp

/-- What a call that may read does to the buffer: the delivered bytes are appended
to the unread ones and the count asked for was not negative. -/
structure Filled (r : BufioT) (fill : Fill) : Prop where
  cursors : Cursors fill.buf
  unread : fill.buf.unread = r.unread ++ fill.delivered
  bufsize : fill.buf.bufsize = r.bufsize
  start : fill.buf.start ≤ r.start
  asked : ∀ n, fill.asked = some n → 0 ≤ n

/-- A read puts as many bytes behind the buffered ones as there is room for, or none. -/
theorem fillRead_stores (r : BufioT) (request : Nat) (refill : Bool) (io : Nat → ReadResult) :
    ∃ ok bytes, bytes.length ≤ r.bufsize - r.end_ ∧
      fillRead r request refill io =
        ⟨BufioT.terminate { r with
            mem := r.mem.write (bufAt r.end_) bytes
            end_ := r.end_ + bytes.length }, ok, some ((r.bufsize : Int) - r.end_), bytes⟩ := by
  unfold fillRead
  dsimp only
  cases io (r.bufsize - r.end_) with
  | error => exact ⟨refill, [], Nat.zero_le _, rfl⟩
  | bytes chunk =>
      dsimp only
      have room : (chunk.take (r.bufsize - r.end_)).length ≤ r.bufsize - r.end_ :=
        List.length_take_le _ _
      cases got : chunk.take (r.bufsize - r.end_) with
      | nil => exact ⟨false, [], Nat.zero_le _, rfl⟩
      | cons b bs =>
          rw [got] at room
          exact ⟨_, b :: bs, room, rfl⟩

theorem fillRead_filled {r : BufioT} (cursors : Cursors r) (request : Nat) (refill : Bool)
    (io : Nat → ReadResult) : Filled r (fillRead r request refill io) := by
  obtain ⟨ok, bytes, room, read⟩ := fillRead_stores r request refill io
  have hstart := cursors.start
  have hend := cursors.end_
  rw [read]
  refine ⟨⟨?_, ?_⟩, ?_, rfl, Nat.le_refl _, fun n asked => ?_⟩
  · exact Nat.le_trans hstart (Nat.le_add_right _ _)
  · change r.end_ + bytes.length ≤ r.bufsize
    omega
  · rw [terminate_unread]
    unfold BufioT.unread
    have behind : bufAt r.end_ = bufAt r.start + (r.end_ - r.start) := by
      unfold bufAt
      omega
    have grown : r.end_ + bytes.length - r.start = r.end_ - r.start + bytes.length := by omega
    dsimp only
    rw [grown, Memory.slice_append, ← behind, Memory.slice_write, Memory.slice_write_outside]
    exact .inl (Nat.le_of_eq behind.symm)
  · have counted := Option.some.inj asked
    omega

theorem fillbuf_filled {r : BufioT} (cursors : Cursors r) (request : Nat)
    (io : Nat → ReadResult) : Filled r (cprFillbuf r request io) := by
  unfold cprFillbuf
  split
  · exact ⟨cursors, by simp, rfl, Nat.le_refl _, fun n none => by cases none⟩
  · dsimp only
    generalize (if request = 0 then r.bufsize else request) = need
    split
    · obtain ⟨compacted, same, size, moved⟩ := compact_spec cursors need
      have filled := fillRead_filled compacted need (decide (request = 0)) io
      exact ⟨filled.cursors, by rw [filled.unread, same], by rw [filled.bufsize, size],
        Nat.le_trans filled.start moved, filled.asked⟩
    · exact ⟨⟨cursors.start, cursors.end_⟩, by simp, rfl, Nat.le_refl _,
        fun n none => by cases none⟩

/-- A successful fill has the requested bytes in the buffer. -/
theorem fillbuf_enough (r : BufioT) (request : Nat) (io : Nat → ReadResult)
    (ok : (cprFillbuf r request io).ok = true) :
    request ≤ (cprFillbuf r request io).buf.end_ - (cprFillbuf r request io).buf.start := by
  by_cases zero : request = 0
  · rw [zero]
    exact Nat.zero_le _
  · unfold cprFillbuf at ok ⊢
    split
    · rename_i large
      rw [if_pos large] at ok
      cases ok
    · rename_i fits
      rw [if_neg fits] at ok
      simp only [zero, decide_false, if_false] at ok ⊢
      split
      · rename_i short
        rw [if_pos short] at ok
        cases answer : io ((compact r request).bufsize - (compact r request).end_) with
        | error =>
            have failed := fillRead_failed request false answer
            rw [failed.ok] at ok
            cases ok
        | bytes chunk =>
            have delivered := fillRead_delivered request false answer
            rw [delivered.start, delivered.end_]
            exact (delivered.ok.mp ok).2
      · rename_i enough
        exact Nat.le_of_not_lt enough

/-- Advancing `start` takes the first unread bytes. -/
theorem unread_advance {r : BufioT} {n : Nat} (enough : n ≤ r.end_ - r.start) :
    r.unread = r.mem.slice (bufAt r.start) n ++
      ({ r with start := r.start + n } : BufioT).unread := by
  unfold BufioT.unread
  dsimp only
  rw [Memory.slice_split r.mem _ enough, bufAt_add, Nat.sub_sub]

theorem xgetbuf_spec {r : BufioT} (cursors : Cursors r) (request : Nat)
    (io : Nat → ReadResult) :
    Cursors (cprXgetbuf r request io).buf ∧
    (cprXgetbuf r request io).buf.bufsize = r.bufsize ∧
    r.unread ++ (cprXgetbuf r request io).delivered =
      (cprXgetbuf r request io).result.getD [] ++ (cprXgetbuf r request io).buf.unread ∧
    ∀ n, (cprXgetbuf r request io).asked = some n → 0 ≤ n := by
  unfold cprXgetbuf
  split
  · exact ⟨cursors, rfl, by simp, fun n none => by cases none⟩
  · have filled := fillbuf_filled cursors request io
    have enough := fillbuf_enough r request io
    dsimp only
    generalize cprFillbuf r request io = fill at filled enough
    split
    · rename_i ok
      have bound := enough ok
      refine ⟨⟨?_, filled.cursors.end_⟩, filled.bufsize, ?_, filled.asked⟩
      · have := filled.cursors.start
        dsimp only
        omega
      · rw [← filled.unread]
        exact unread_advance bound
    · refine ⟨filled.cursors, filled.bufsize, ?_, filled.asked⟩
      rw [← filled.unread]
      rfl

/-- The prefix that `cpr_resetbuf` consumes. -/
def resetConsumes (r : BufioT) (consume : Nat) : List UInt8 :=
  if consume > r.bufsize then []
  else if r.start + consume ≤ r.end_ then r.mem.slice (bufAt r.start) consume
  else []

/-- Moving the rest to the front keeps it. -/
theorem resetMove_spec {r : BufioT} (start : Nat) (hend : r.end_ ≤ r.bufsize) :
    Cursors (resetMove r start) ∧
    (resetMove r start).unread = r.mem.slice (bufAt start) (r.end_ - start) := by
  refine ⟨⟨Nat.zero_le _, Nat.le_trans (Nat.sub_le _ _) hend⟩, ?_⟩
  unfold BufioT.unread resetMove
  dsimp only
  split
  · exact Memory.slice_move r.mem _ _ _
  · -- Nothing to move: the rest is at the front already, or nothing is left.
    by_cases left : r.end_ - start = 0
    · rw [left]
      rfl
    · rw [show start = 0 by omega]
      rfl

theorem resetbuf_spec {r : BufioT} (cursors : Cursors r) (consume : Nat)
    (io : Nat → ReadResult) :
    Cursors (cprResetbuf r consume io).buf ∧
    (cprResetbuf r consume io).buf.bufsize = r.bufsize ∧
    r.unread ++ (cprResetbuf r consume io).delivered =
      resetConsumes r consume ++ (cprResetbuf r consume io).buf.unread ∧
    ∀ n, (cprResetbuf r consume io).asked = some n → 0 ≤ n := by
  unfold cprResetbuf resetConsumes
  split
  · exact ⟨cursors, rfl, by simp, fun n none => by cases none⟩
  · split
    · rename_i within
      have advanced : r.unread = r.mem.slice (bufAt r.start) consume ++
          r.mem.slice (bufAt (r.start + consume)) (r.end_ - (r.start + consume)) :=
        unread_advance (by omega)
      obtain ⟨placed, moved⟩ := resetMove_spec (r.start + consume) cursors.end_
      dsimp only
      split
      · have filled := fillbuf_filled placed
          (r.bufsize - (resetMove r (r.start + consume)).end_) io
        refine ⟨filled.cursors, filled.bufsize, ?_, filled.asked⟩
        rw [filled.unread, moved, advanced, List.append_assoc]
      · refine ⟨placed, rfl, ?_, fun n none => by cases none⟩
        rw [moved, advanced, List.append_nil]
    · exact ⟨cursors, rfl, by simp, fun n none => by cases none⟩

/-- A delimiter among the unread bytes cuts them in three. -/
theorem unread_line {r : BufioT} {delim : List UInt8} {stop : Nat} (low : r.start ≤ stop)
    (inside : stop + delim.length ≤ r.end_)
    (matched : r.mem.slice (bufAt stop) delim.length = delim) :
    r.unread = r.mem.slice (bufAt r.start) (stop - r.start) ++ (delim ++
      r.mem.slice (bufAt (stop + delim.length)) (r.end_ - (stop + delim.length))) := by
  have line : r.unread = r.mem.slice (bufAt r.start) (stop - r.start) ++
      r.mem.slice (bufAt stop) (r.end_ - stop) := by
    have advanced := unread_advance (r := r) (n := stop - r.start) (by omega)
    rwa [show r.start + (stop - r.start) = stop by omega] at advanced
  have rest : r.mem.slice (bufAt stop) (r.end_ - stop) = delim ++
      r.mem.slice (bufAt (stop + delim.length)) (r.end_ - (stop + delim.length)) := by
    have cut := r.mem.slice_split (bufAt stop) (show delim.length ≤ r.end_ - stop by omega)
    rw [matched, Nat.sub_sub] at cut
    rwa [bufAt_add]
  rw [line, rest]

/-- A pass of `cpr_lgetbuf` with `scan` at or behind `start`: a line takes itself
and the delimiter from the unread bytes, and a refill keeps `scan` behind `start`. -/
theorem pass_spec {r : BufioT} (cursors : Cursors r) {delim : List UInt8}
    (nonempty : delim ≠ []) (outlen : Bool) {scan : Nat} (behind : r.start ≤ scan)
    (io : Nat → ReadResult) :
    match lgetbufPass r delim outlen scan io with
    | .line buf text =>
        Cursors buf ∧ buf.bufsize = r.bufsize ∧ r.unread = text ++ delim ++ buf.unread
    | .null fill => Filled r fill
    | .again fill scan' => Filled r fill ∧ fill.buf.start ≤ scan' := by
  have filled := fillbuf_filled cursors 0 io
  have positive : 0 < delim.length := List.length_pos_of_ne_nil nonempty
  unfold lgetbufPass
  cases search : searchUp (matchesAt r.mem (bufAt 0) delim)
      (r.end_ + 1 - (scan + delim.length)) scan with
  | mk stop hit =>
    cases hit with
    | true =>
        obtain ⟨low, inside, matched, _⟩ := scan_found search
        rw [← bufAt_add, Nat.zero_add] at matched
        dsimp only
        refine ⟨⟨inside, cursors.end_⟩, rfl, ?_⟩
        rw [unread_line (by omega) inside matched, List.append_assoc]
        congr 2
        unfold BufioT.unread
        dsimp only
        -- The NUL lands on the delimiter, in front of what stays unread.
        have nul : r.start + (stop - r.start) = stop := by omega
        split
        · rfl
        · split
          · rw [nul]
            refine (Memory.slice_set_outside r.mem 0 (.inl ?_)).symm
            exact Nat.add_lt_add_left (Nat.lt_add_of_pos_right positive) _
          · rfl
    | false =>
        obtain ⟨stopped, _⟩ := scan_missed search
        cases ok : (cprFillbuf r 0 io).ok with
        | true =>
            simp only [ok, if_true]
            exact ⟨filled, by have := filled.start; omega⟩
        | false =>
            simp only [ok, Bool.false_eq_true, if_false]
            exact filled

/-! ## Runs of read-side calls -/

/-- A call of `cpr_lgetbuf` between two passes of its loop. -/
structure Scanning where
  delim : List UInt8
  outlen : Bool
  scan : Nat

/-- A buffer, the call of `cpr_lgetbuf` it is in, and the history so far: the bytes
`read()` has delivered, the bytes consumed, the counts asked for. -/
structure State where
  buf : BufioT
  scanning : Option Scanning
  delivered : List UInt8
  consumed : List UInt8
  asked : List Int

/-- A read-side call, or one more pass of the loop of a `cpr_lgetbuf`, with the
answer of `read()` should it be asked. -/
inductive Call where
  | fillbuf (request : Nat) (io : Nat → ReadResult)
  | xgetbuf (request : Nat) (io : Nat → ReadResult)
  | cgetbuf (io : Nat → ReadResult)
  | resetbuf (consume : Nat) (io : Nat → ReadResult)
  | lgetbuf (delim : Option Delim) (outlen : Bool)
  | pass (io : Nat → ReadResult)

/-- The history grows by what one call consumed, asked for and was given. -/
def State.after (s : State) (buf : BufioT) (scanning : Option Scanning)
    (consumed : List UInt8) (asked : Option Int) (delivered : List UInt8) : State where
  buf := buf
  scanning := scanning
  delivered := s.delivered ++ delivered
  consumed := s.consumed ++ consumed
  asked := s.asked ++ asked.toList

/-- One call.  While a `cpr_lgetbuf` runs only its loop goes on. -/
def step (s : State) : Call → Option State
  | .fillbuf request io =>
      if s.scanning.isSome then none
      else
        let fill := cprFillbuf s.buf request io
        some (s.after fill.buf none [] fill.asked fill.delivered)
  | .xgetbuf request io =>
      if s.scanning.isSome then none
      else
        let get := cprXgetbuf s.buf request io
        some (s.after get.buf none (get.result.getD []) get.asked get.delivered)
  | .cgetbuf io =>
      if s.scanning.isSome then none
      else
        let get := cprCgetbuf s.buf io
        some (s.after get.buf none (get.result.getD []) get.asked get.delivered)
  | .resetbuf consume io =>
      if s.scanning.isSome then none
      else
        let fill := cprResetbuf s.buf consume io
        some (s.after fill.buf none (resetConsumes s.buf consume) fill.asked fill.delivered)
  | .lgetbuf delim outlen =>
      if s.scanning.isSome then none
      else
        some (s.after s.buf (some ⟨delimBytes (delimText delim), outlen, s.buf.start⟩)
          [] none [])
  | .pass io =>
      match s.scanning with
      | none => none
      | some ⟨delim, outlen, scan⟩ =>
          match lgetbufPass s.buf delim outlen scan io with
          | .line buf text => some (s.after buf none (text ++ delim) none [])
          | .null fill => some (s.after fill.buf none [] fill.asked fill.delivered)
          | .again fill scan =>
              some (s.after fill.buf (some ⟨delim, outlen, scan⟩) [] fill.asked fill.delivered)

/-- `cpr_makebuf` sets `start` and `end`; everything else is as `malloc` left it. -/
def system (bufsize : Nat) : System State Call where
  init s := s.buf.bufsize = bufsize ∧ s.buf.start = 0 ∧ s.buf.end_ = 0 ∧
    s.scanning = none ∧ s.delivered = [] ∧ s.consumed = [] ∧ s.asked = []
  step s call s' := step s call = some s'

/-- What every run maintains. -/
structure Inv (s : State) : Prop where
  cursors : Cursors s.buf
  stream : s.delivered = s.consumed ++ s.buf.unread
  asked : ∀ n ∈ s.asked, 0 ≤ n
  scanning : ∀ scanning, s.scanning = some scanning →
    scanning.delim ≠ [] ∧ s.buf.start ≤ scanning.scan

/-- A call keeps the stream when what it was given and what it consumed balance. -/
theorem Inv.after {s : State} (inv : Inv s) {buf : BufioT} {scanning : Option Scanning}
    {consumed : List UInt8} {asked : Option Int} {delivered : List UInt8}
    (cursors : Cursors buf) (balance : s.buf.unread ++ delivered = consumed ++ buf.unread)
    (counted : ∀ n, asked = some n → 0 ≤ n)
    (ahead : ∀ line, scanning = some line → line.delim ≠ [] ∧ buf.start ≤ line.scan) :
    Inv (s.after buf scanning consumed asked delivered) where
  cursors := cursors
  stream := by
    change s.delivered ++ delivered = s.consumed ++ consumed ++ buf.unread
    rw [inv.stream, List.append_assoc, balance, List.append_assoc]
  asked n member := by
    rcases List.mem_append.mp member with earlier | now
    · exact inv.asked n earlier
    · exact counted n (Option.mem_toList.mp now)
  scanning := ahead

/-- A call that is made between the passes of `cpr_lgetbuf` has one result. -/
theorem of_idle {s s' t : State}
    (stepped : (if s.scanning.isSome then none else some t) = some s') : t = s' := by
  split at stepped
  · cases stepped
  · exact Option.some.inj stepped

/-- A call outside `cpr_lgetbuf` keeps the invariant by its own balance. -/
theorem Inv.call {s s' : State} (inv : Inv s) {buf : BufioT} {consumed : List UInt8}
    {asked : Option Int} {delivered : List UInt8} (cursors : Cursors buf)
    (balance : s.buf.unread ++ delivered = consumed ++ buf.unread)
    (counted : ∀ n, asked = some n → 0 ≤ n)
    (stepped : (if s.scanning.isSome then none
      else some (s.after buf none consumed asked delivered)) = some s') : Inv s' := by
  rw [← of_idle stepped]
  exact inv.after cursors balance counted (fun _ none => by cases none)

theorem step_inv {s s' : State} {call : Call} (inv : Inv s) (stepped : step s call = some s') :
    Inv s' := by
  cases call with
  | fillbuf request io =>
      have filled := fillbuf_filled inv.cursors request io
      exact inv.call filled.cursors filled.unread.symm filled.asked stepped
  | xgetbuf request io =>
      obtain ⟨cursors, _, balance, counted⟩ := xgetbuf_spec inv.cursors request io
      exact inv.call cursors balance counted stepped
  | cgetbuf io =>
      obtain ⟨cursors, _, balance, counted⟩ := xgetbuf_spec inv.cursors 1 io
      exact inv.call cursors balance counted stepped
  | resetbuf consume io =>
      obtain ⟨cursors, _, balance, counted⟩ := resetbuf_spec inv.cursors consume io
      exact inv.call cursors balance counted stepped
  | lgetbuf delim outlen =>
      rw [← of_idle stepped]
      refine inv.after inv.cursors (by simp) (fun n none => by cases none) ?_
      intro line entered
      cases entered
      exact ⟨delimBytes_ne_nil delim, Nat.le_refl _⟩
  | pass io =>
      simp only [step] at stepped
      cases running : s.scanning with
      | none =>
          simp only [running] at stepped
          cases stepped
      | some line =>
          obtain ⟨nonempty, behind⟩ := inv.scanning line running
          have passed := pass_spec inv.cursors nonempty line.outlen behind io
          simp only [running] at stepped
          cases pass : lgetbufPass s.buf line.delim line.outlen line.scan io with
          | line buf text =>
              rw [pass] at stepped passed
              cases stepped
              obtain ⟨cursors, _, balance⟩ := passed
              refine inv.after cursors ?_ (fun n none => by cases none)
                (fun _ none => by cases none)
              rw [List.append_nil]
              exact balance
          | null fill =>
              rw [pass] at stepped passed
              cases stepped
              exact inv.after passed.cursors passed.unread.symm passed.asked
                (fun _ none => by cases none)
          | again fill scan =>
              rw [pass] at stepped passed
              cases stepped
              obtain ⟨filled, ahead⟩ := passed
              refine inv.after filled.cursors filled.unread.symm filled.asked ?_
              intro next entered
              cases entered
              exact ⟨nonempty, ahead⟩

/-- Through every run of read-side calls, passes of `cpr_lgetbuf` included, the
cursors stay in order, no count passed to `read()` underflows, and the bytes
delivered are the bytes consumed followed by the unread ones. -/
theorem reader_fidelity {bufsize : Nat} {trace : List Call} {s : State}
    (run : Run (system bufsize) trace s) :
    s.buf.start ≤ s.buf.end_ ∧ s.buf.end_ ≤ s.buf.bufsize ∧
    (∀ n ∈ s.asked, 0 ≤ n) ∧
    s.delivered = s.consumed ++ s.buf.unread := by
  have inv : Inv s := by
    refine Run.invariant (fun _ s => Inv s) ?_ ?_ run
    · rintro s ⟨_, start, stop, idle, delivered, consumed, asked⟩
      refine ⟨⟨by omega, by omega⟩, ?_, ?_, ?_⟩
      · rw [delivered, consumed]
        simp [BufioT.unread, start, stop]
      · intro n member
        rw [asked] at member
        cases member
      · intro line running
        rw [idle] at running
        cases running
    · intro _ s call s' inv stepped
      exact step_inv inv stepped
  exact ⟨inv.cursors.start, inv.cursors.end_, inv.asked, inv.stream⟩

/-- A short read, one byte taken, and a line that is completed by a second read. -/
theorem reader_fidelity_line :
    ∃ (trace : List Call) (s : State), Run (system 8) trace s ∧
      s.delivered = [1, 2, 3, 4, 10, 5, 6, 7, 8] ∧ s.consumed = [1, 2, 3, 4, 10] ∧
      s.delivered = s.consumed ++ s.buf.unread := by
  have start : Run (system 8) [] ⟨⟨8, 0, 0, 0, fun _ => 0⟩, none, [], [], []⟩ :=
    .start ⟨rfl, rfl, rfl, rfl, rfl, rfl, rfl⟩
  have taken := start.next (show step _ (.xgetbuf 1 fun _ => .bytes [1, 2, 3]) = some _ from rfl)
  have entered := taken.next (show step _ (.lgetbuf none true) = some _ from rfl)
  have failed := entered.next (show step _ (.pass fun _ => .error) = some _ from rfl)
  have filled := failed.next
    (show step _ (.pass fun _ => .bytes [4, 10, 5, 6, 7, 8]) = some _ from rfl)
  have line := filled.next (show step _ (.pass fun _ => .error) = some _ from rfl)
  exact ⟨_, _, line, rfl, rfl, (reader_fidelity line).2.2.2⟩

end CprFormal.Bufio.Reader
