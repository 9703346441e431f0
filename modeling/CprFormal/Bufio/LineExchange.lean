import CprFormal.Bufio.Conversation
import CprFormal.Library.Joined

/-!
# Lines between two peers

Both sides of a connection put whole lines, each with a one-byte delimiter behind it, and
read with `cpr_lgetbuf` only.  `cpr_lgetbuf` may overlook a delimiter and hand out several
lines as one, but it always stops at a delimiter: no line is torn, lost, repeated or out of
order, and what has not been handed out yet is the remaining lines.
-/

namespace CprFormal.Bufio.LineExchange

open Function (update)
open CprFormal.Library.Joined CprFormal.Library.Transition
open CprFormal.Bufio.Model
open CprFormal.Bufio.Conversation (Net Peer NoWriteError)

/-- A read-side call, a put of a line, or a call that puts nothing. -/
inductive Event where
  | read (side : Bool) (call : Reader.Call)
  | put (side : Bool) (line : List UInt8) (call : WriteArea.Call)
  | idle (side : Bool) (call : WriteArea.Call)

/-- Both sides, the lines of each that puts have accepted, and the texts that
`cpr_lgetbuf` has returned to each. -/
structure Exchange where
  net : Net
  put : Bool → List (List UInt8)
  got : Bool → List (List UInt8)

/-- The line a read-side call returns. -/
def returned (r : Reader.State) : Reader.Call → Option (List UInt8)
  | .pass io =>
      match r.scanning with
      | none => none
      | some line =>
          match lgetbufPass r.buf line.delim line.outlen line.scan io with
          | .line _ text => some text
          | _ => none
  | _ => none

/-- The calls that take nothing but lines. -/
def ReadsLines (d : UInt8) : Reader.Call → Prop
  | .lgetbuf delim _ => delimBytes (delimText delim) = [d]
  | .pass _ => True
  | .fillbuf _ _ => True
  | _ => False

/-- A step of one side; no `write()` fails. -/
inductive Step (d : UInt8) : Exchange → Event → Exchange → Prop where
  | read {s : Exchange} {side : Bool} {call : Reader.Call} {net : Net}
      (lines : ReadsLines d call) (step : Conversation.Step s.net (.read side call) net) :
      Step d s (.read side call)
        { s with
          net := net
          got := update s.got side
            (s.got side ++ (returned (s.net.peer side).reader call).toList) }
  | put {s : Exchange} {side : Bool} {line : List UInt8} {call : WriteArea.Call} {net : Net}
      (whole : call.op.bytes = line ++ [d]) (clean : d ∉ line)
      (step : Conversation.Step s.net (.write side call) net)
      (noError : NoWriteError s.net (.write side call)) :
      Step d s (.put side line call)
        { s with
          net := net
          put := update s.put side (s.put side ++
            if (WriteArea.perform (s.net.peer side).reader.buf call).ok then [line] else []) }
  | idle {s : Exchange} {side : Bool} {call : WriteArea.Call} {net : Net}
      (nothing : call.op.bytes = []) (step : Conversation.Step s.net (.write side call) net)
      (noError : NoWriteError s.net (.write side call)) :
      Step d s (.idle side call) { s with net := net }

/-- Two buffers in which nothing is unread or pending. -/
def system (d : UInt8) : System Exchange Event where
  init s := (Conversation.system fun _ => []).init s.net ∧ s.put = (fun _ => []) ∧
    s.got = fun _ => []
  step := Step d

/-! ## What every step keeps -/

/-- What is consumed are the texts that were returned, what is accepted are the lines put,
each with its delimiter. -/
structure Inv (d : UInt8) (s : Exchange) : Prop where
  net : Conversation.Inv (fun _ => []) s.net
  accepted : ∀ side, (s.net.peer side).accepted = terminated d (s.put side)
  consumed : ∀ side, (s.net.peer side).reader.consumed = terminated d (s.got side)
  clean : ∀ side, ∀ line ∈ s.put side, d ∉ line
  scanning : ∀ side line, (s.net.peer side).reader.scanning = some line → line.delim = [d]

/-- A read-side call consumes the line that it returns, with its delimiter. -/
theorem read_consumes {d : UInt8} {r r' : Reader.State} {call : Reader.Call}
    (lines : ReadsLines d call) (scanning : ∀ line, r.scanning = some line → line.delim = [d])
    (stepped : Reader.step r call = some r') :
    r'.consumed = r.consumed ++ terminated d (returned r call).toList ∧
      ∀ line, r'.scanning = some line → line.delim = [d] := by
  cases call with
  | fillbuf request io =>
      rw [← Reader.of_idle stepped]
      exact ⟨rfl, fun _ none => by cases none⟩
  | xgetbuf request io => exact lines.elim
  | cgetbuf io => exact lines.elim
  | resetbuf consume io => exact lines.elim
  | lgetbuf delim outlen =>
      rw [← Reader.of_idle stepped]
      refine ⟨rfl, fun line entered => ?_⟩
      cases entered
      exact lines
  | pass io =>
      simp only [Reader.step] at stepped
      cases running : r.scanning with
      | none =>
          simp only [running] at stepped
          cases stepped
      | some line =>
          have delim := scanning line running
          simp only [running] at stepped
          simp only [returned, running]
          cases pass : lgetbufPass r.buf line.delim line.outlen line.scan io with
          | line buf text =>
              rw [pass] at stepped
              cases stepped
              refine ⟨?_, fun _ none => by cases none⟩
              change r.consumed ++ (text ++ line.delim) = _
              rw [delim, Option.toList_some, terminated_cons]
              rfl
          | null fill =>
              rw [pass] at stepped
              cases stepped
              exact ⟨rfl, fun _ none => by cases none⟩
          | again fill scan =>
              rw [pass] at stepped
              cases stepped
              refine ⟨rfl, fun next entered => ?_⟩
              cases entered
              exact delim

/-- What a read-side step leaves of the other fields. -/
theorem read_peer {s s' : Net} {side : Bool} {call : Reader.Call}
    (step : Conversation.Step s (.read side call) s') :
    (∀ i, (s'.peer i).accepted = (s.peer i).accepted) ∧
      (∀ i, i ≠ side → s'.peer i = s.peer i) ∧
      Reader.step (s.peer side).reader call = some (s'.peer side).reader := by
  cases step with
  | read side call stepped delivered front =>
      refine ⟨fun i => ?_, fun i other => Function.update_of_ne other _ _, ?_⟩
      · by_cases own : i = side
        · subst own
          simp only [Function.update_self]
        · simp only [Function.update_of_ne own]
      · simp only [Function.update_self]
        exact stepped

/-- What a write-side step leaves of the other fields. -/
theorem write_peer {s s' : Net} {side : Bool} {call : WriteArea.Call}
    (step : Conversation.Step s (.write side call) s') :
    (∀ i, (s'.peer i).reader.consumed = (s.peer i).reader.consumed ∧
      (s'.peer i).reader.scanning = (s.peer i).reader.scanning) ∧
      (∀ i, i ≠ side → s'.peer i = s.peer i) ∧
      (s'.peer side).accepted = (s.peer side).accepted ++
        if (WriteArea.perform (s.peer side).reader.buf call).ok then call.op.bytes else [] := by
  cases step with
  | write side call =>
      refine ⟨fun i => ?_, fun i other => Function.update_of_ne other _ _, ?_⟩
      · by_cases own : i = side
        · subst own
          simp only [Function.update_self]
          exact ⟨rfl, rfl⟩
        · simp only [Function.update_of_ne own, and_self]
      · simp only [Function.update_self]
        rfl

theorem step_inv {d : UInt8} {s s' : Exchange} {e : Event} (inv : Inv d s)
    (step : Step d s e s') : Inv d s' := by
  cases step with
  | @read side call net lines step =>
      obtain ⟨accepted, others, stepped⟩ := read_peer step
      obtain ⟨consumed, scanning⟩ := read_consumes lines (inv.scanning side) stepped
      refine ⟨Conversation.step_inv inv.net step trivial, fun i => ?_, fun i => ?_, inv.clean,
        fun i line running => ?_⟩
      · rw [accepted]
        exact inv.accepted i
      · by_cases own : i = side
        · subst own
          simp only [Function.update_self]
          rw [consumed, inv.consumed, terminated_append]
        · simp only [Function.update_of_ne own]
          rw [others i own]
          exact inv.consumed i
      · by_cases own : i = side
        · subst own
          exact scanning line running
        · rw [others i own] at running
          exact inv.scanning i line running
  | @put side line call net whole clean step noError =>
      obtain ⟨reader, others, accepted⟩ := write_peer step
      refine ⟨Conversation.step_inv inv.net step noError, fun i => ?_, fun i => ?_, fun i => ?_,
        fun i line running => ?_⟩
      · by_cases own : i = side
        · subst own
          simp only [Function.update_self]
          rw [accepted, inv.accepted, terminated_append, whole]
          split
          · rw [terminated_cons]
            rfl
          · rfl
        · simp only [Function.update_of_ne own]
          rw [others i own]
          exact inv.accepted i
      · rw [(reader i).1]
        exact inv.consumed i
      · by_cases own : i = side
        · subst own
          simp only [Function.update_self]
          intro l member
          rcases List.mem_append.mp member with old | new
          · exact inv.clean i l old
          · split at new
            · rw [List.mem_singleton.mp new]
              exact clean
            · exact absurd new List.not_mem_nil
        · simp only [Function.update_of_ne own]
          exact inv.clean i
      · rw [(reader i).2] at running
        exact inv.scanning i line running
  | @idle side call net nothing step noError =>
      obtain ⟨reader, others, accepted⟩ := write_peer step
      refine ⟨Conversation.step_inv inv.net step noError, fun i => ?_, fun i => ?_, inv.clean,
        fun i line running => ?_⟩
      · by_cases own : i = side
        · subst own
          rw [accepted, nothing, ite_self, List.append_nil]
          exact inv.accepted i
        · rw [others i own]
          exact inv.accepted i
      · rw [(reader i).1]
        exact inv.consumed i
      · rw [(reader i).2] at running
        exact inv.scanning i line running

theorem run_inv {d : UInt8} {trace : List Event} {s : Exchange} (run : Run (system d) trace s) :
    Inv d s := by
  refine run.invariant (fun _ s => Inv d s) (fun s init => ?_)
    fun _ _ _ _ inv step => step_inv inv step
  obtain ⟨net, put, got⟩ := init
  have fresh := Conversation.run_inv (.start net)
  refine ⟨fresh, fun i => ?_, fun i => ?_, fun i line member => ?_, fun i line running => ?_⟩
  · rw [put, (net.2 i).2.1]
    rfl
  · rw [got, (net.2 i).2.2.2.2.1]
    rfl
  · rw [put] at member
    exact absurd member List.not_mem_nil
  · rw [(net.2 i).2.2.1] at running
    cases running

/-- In every run in which both sides put lines and read lines, the texts one side has got
are the lines the other side has put, in order, each text one line or several of them
joined; what is unread, on the way and pending is the remaining lines. -/
theorem line_exchange {d : UInt8} {trace : List Event} {s : Exchange}
    (run : Run (system d) trace s) (side : Bool) :
    ∃ (groups : List (List (List UInt8))) (rest : List (List UInt8)),
      s.put side = groups.flatten ++ rest ∧ (∀ group ∈ groups, group ≠ []) ∧
      s.got (!side) = groups.map [d].intercalate ∧
      (s.net.peer (!side)).reader.buf.unread ++ s.net.wire side ++
        (s.net.peer side).reader.buf.pending = terminated d rest := by
  have inv := run_inv run
  have stream := (inv.net.sound (!side)).duplex.reader.stream
  have whole := (inv.net.sound side).written
  rw [inv.net.wire side, stream, inv.consumed, inv.accepted, List.nil_append] at whole
  rw [List.append_assoc, List.append_assoc] at whole
  obtain ⟨groups, rest, put, nonempty, got, left⟩ :=
    terminated_groups (inv.clean side) whole.symm
  refine ⟨groups, rest, put, nonempty, got, ?_⟩
  rw [← left, List.append_assoc]

/-- Two lines are put, flushed and read one after the other. -/
theorem line_exchange_two :
    ∃ (trace : List Event) (s : Exchange), Run (system 10) trace s ∧
      s.put false = [[97], [98]] ∧ s.got true = [[97]] ∧
      ∃ (groups : List (List (List UInt8))) (rest : List (List UInt8)),
        s.put false = groups.flatten ++ rest ∧ (∀ group ∈ groups, group ≠ []) ∧
        s.got (!false) = groups.map [(10 : UInt8)].intercalate ∧
        (s.net.peer (!false)).reader.buf.unread ++ s.net.wire false ++
          (s.net.peer false).reader.buf.pending = terminated 10 rest := by
  have start : Run (system 10) []
      ⟨⟨fun _ => ⟨⟨⟨4, 0, 0, 0, fun _ => 0⟩, none, [], [], []⟩, [], []⟩, fun _ => []⟩,
        fun _ => [], fun _ => []⟩ :=
    .start ⟨⟨rfl, fun _ => ⟨rfl, rfl, rfl, rfl, rfl, rfl, rfl, rfl, Nat.zero_le _, rfl⟩⟩,
      rfl, rfl⟩
  have first := start.next (Step.put (show _ = [97] ++ [10] from rfl) (by decide)
    (.write false ⟨.plain (.xputbuf (some [97, 10])), .count 0⟩) (fun _ error => by cases error))
  have second := first.next (Step.put (show _ = [98] ++ [10] from rfl) (by decide)
    (.write false ⟨.plain (.xputbuf (some [98, 10])), .count 0⟩) (fun _ error => by cases error))
  have flushed := second.next (Step.idle rfl
    (.write false ⟨.plain .flushbuf, .count 4⟩) (fun _ error => by cases error))
  have called := flushed.next (Step.read (show ReadsLines 10 (.lgetbuf none true) from rfl)
    (.read true (.lgetbuf none true) (show Reader.step _ (.lgetbuf none true) = some _ from rfl)
      (show _ = [] ++ [] from rfl) rfl))
  have filled := called.next (Step.read (show ReadsLines 10 (.pass fun _ => .bytes [97, 10, 98, 10])
    from trivial) (.read true (.pass fun _ => .bytes [97, 10, 98, 10])
      (show Reader.step _ (.pass fun _ => .bytes [97, 10, 98, 10]) = some _ from rfl)
      (show _ = [] ++ [97, 10, 98, 10] from rfl) (show _ = [97, 10, 98, 10] ++ [] from rfl)))
  have taken := filled.next (Step.read (show ReadsLines 10 (.pass fun _ => .error) from trivial)
    (.read true (.pass fun _ => .error)
      (Option.some_get (x := Reader.step _ (.pass fun _ => .error)) (by decide +kernel)).symm
      (show _ = [97, 10, 98, 10] ++ [] by decide +kernel) rfl))
  exact ⟨_, _, taken, rfl, by decide +kernel, line_exchange taken false⟩

end CprFormal.Bufio.LineExchange
