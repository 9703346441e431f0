import CprFormal.Library.Transition
import CprFormal.Socket.Editing

/-!
# Two peers on a socket

Each side puts texts and characters and reads with `cpr_getline`, which answers what it
reads on the same socket.  A newline is answered by a newline, whether the characters are
echoed or not: where both sides read lines, a newline that has once been put is on the way
for ever.
-/

namespace CprFormal.Socket.Peers

open Function (update)
open CprFormal.Library.FlatMemory CprFormal.Library.Transition
open CprFormal.Socket.Editing CprFormal.Socket.Model
open CprFormal.Strchar.Strlen

/-- A call of `cpr_getline`, with the bytes that it has received. -/
structure Reading where
  limit : Nat
  echo : Bool
  line : Getline
  received : List UInt8

/-- One side: the call it is in, and those that have returned. -/
structure Peer where
  reading : Option Reading
  returned : List Reading

/-- Both sides, the bytes on the way to each of them and all that have been sent to it, and
those that each of them has put. -/
structure Net where
  peer : Bool → Peer
  wire : Bool → List UInt8
  sent : Bool → List UInt8
  put : Bool → List UInt8

/-- `send` of a side, as far as it takes the bytes. -/
def Net.send (s : Net) (side : Bool) (bytes : List UInt8) : Net :=
  { s with
    wire := update s.wire (!side) (s.wire (!side) ++ bytes)
    sent := update s.sent (!side) (s.sent (!side) ++ bytes) }

inductive Event where
  | putline (side : Bool) (text : CString) (limit : Nat) (took : Nat)
  | putch (side : Bool) (code : UInt8) (took : Nat)
  | call (side : Bool) (text : Memory UInt8) (limit : Nat) (echo : Bool)
  | recv (side : Bool) (answer : Option UInt8)
  | done (side : Bool)

/-- A call with one more answer of `recv`. -/
def Reading.next (r : Reading) (answer : Option UInt8) : Reading :=
  { r with
    line := cprGetline r.limit r.echo r.line answer
    received := r.received ++ answer.toList }

/-- The bytes that the body of the loop sends for an answer. -/
def Reading.reply (r : Reading) (answer : Option UInt8) : List UInt8 :=
  (r.next answer).line.sent.drop r.line.sent.length

/-- A put sends a front part of its bytes, or fails.  `cpr_getline` does not look at what
`send` returns; its sends are taken to succeed. -/
inductive Step : Net → Event → Net → Prop where
  | putline {s : Net} (side : Bool) (text : CString) (limit took : Nat) :
      Step s (.putline side text limit took)
        { s.send side ((cprPutline text limit).take took) with
          put := update s.put side (s.put side ++ (cprPutline text limit).take took) }
  | putch {s : Net} (side : Bool) (code : UInt8) (took : Nat) :
      Step s (.putch side code took)
        { s.send side ((cprPutch code).take took) with
          put := update s.put side (s.put side ++ (cprPutch code).take took) }
  | call {s : Net} {side : Bool} (idle : (s.peer side).reading = none) (text : Memory UInt8)
      (limit : Nat) (echo : Bool) :
      Step s (.call side text limit echo)
        { s with
          peer := update s.peer side
            { s.peer side with reading := some ⟨limit, echo, startLine text limit, []⟩ } }
  | recv {s : Net} {side : Bool} {r : Reading} {b : UInt8} {rest : List UInt8}
      (reading : (s.peer side).reading = some r) (waiting : r.line.result = none)
      (front : s.wire side = b :: rest) :
      Step s (.recv side (some b))
        (Net.send
          { s with
            peer := update s.peer side { s.peer side with reading := some (r.next (some b)) }
            wire := update s.wire side rest } side (r.reply (some b)))
  | lost {s : Net} {side : Bool} {r : Reading} (reading : (s.peer side).reading = some r)
      (waiting : r.line.result = none) :
      Step s (.recv side none)
        (Net.send
          { s with
            peer := update s.peer side { s.peer side with reading := some (r.next none) } }
          side (r.reply none))
  | done {s : Net} {side : Bool} {r : Reading} (reading : (s.peer side).reading = some r)
      (returned : r.line.result.isSome) :
      Step s (.done side)
        { s with
          peer := update s.peer side ⟨none, (s.peer side).returned ++ [r]⟩ }

/-- Two idle sides and nothing on the way. -/
def system : System Net Event where
  init s := s.peer = (fun _ => ⟨none, []⟩) ∧ s.wire = (fun _ => []) ∧ s.sent = (fun _ => []) ∧
    s.put = fun _ => []
  step := Step

/-! ## Newlines -/

/-- The bytes that a key sends. -/
def answer (echo : Bool) (s : Getline) : Key → List UInt8
  | .character b => if echo then [b] else []
  | .newline => if echo && s.cr then [13, 10] else [10]
  | .erase => if s.pos = 0 then [] else if echo then [8] else []
  | _ => []

/-- What a call has been told: without room for a line nothing; otherwise its line is open,
or its last byte has ended it. -/
inductive Told (r : Reading) : Prop where
  | small (small : r.limit < 2) (result : r.line.result = some 0) (received : r.received = [])
  | waiting (line : OpenLine r.limit r.line r.received) (within : 10 ∉ r.received)
  | ended {v : Int} {text : List UInt8} (result : r.line.result = some v)
      (line : EndedLine r.limit r.line r.received v text) (within : 10 ∉ r.received.dropLast)

theorem told_start (text : Memory UInt8) (limit : Nat) (echo : Bool) :
    Told ⟨limit, echo, startLine text limit, []⟩ := by
  by_cases room : 2 ≤ limit
  · exact .waiting (startLine_open room text) List.not_mem_nil
  · refine .small (Nat.lt_of_not_le room) ?_ rfl
    unfold startLine
    rw [if_pos (Nat.lt_of_not_le room)]

/-- A newline does not leave a line open. -/
theorem newline_returns (limit : Nat) (echo : Bool) {s : Getline} (waiting : s.result = none) :
    (cprGetline limit echo s (some 10)).result = some (s.pos : Int) := by
  rw [cprGetline_waiting waiting]
  rfl

theorem told_next {r : Reading} (told : Told r) (waiting : r.line.result = none)
    (got : Option UInt8) : Told (r.next got) := by
  cases told with
  | small small result received => exact absurd (result.symm.trans waiting) (Option.some_ne_none _)
  | ended result line within =>
      exact absurd (result.symm.trans waiting) (Option.some_ne_none _)
  | waiting line within =>
      have front : 10 ∉ (r.received ++ got.toList).dropLast := by
        cases got with
        | none =>
            rw [Option.toList_none, List.append_nil]
            exact fun inside => within ((List.dropLast_sublist _).subset inside)
        | some b => rwa [Option.toList_some, List.dropLast_concat]
      rcases line.step r.echo got with still | ⟨v, text, result, ended⟩
      · refine .waiting still fun inside => ?_
        have newline : got = some 10 := by
          rcases List.mem_append.mp inside with before | here
          · exact absurd before within
          · exact Option.mem_toList.mp here
        have returned := newline_returns r.limit r.echo waiting
        rw [newline] at still
        exact Option.some_ne_none _ (returned.symm.trans still.waiting)
      · exact .ended result ended front

/-- All calls of a side, the current one last. -/
def Peer.calls (p : Peer) : List Reading := p.returned ++ p.reading.toList

/-- What has been sent to a side is what its calls have received and what is on the way. -/
structure Inv (s : Net) : Prop where
  told : ∀ side, ∀ r ∈ (s.peer side).calls, Told r
  returned : ∀ side, ∀ r ∈ (s.peer side).returned, r.line.result.isSome
  split : ∀ side, s.sent side = (s.peer side).calls.flatMap Reading.received ++ s.wire side

/-- One side goes on, with the bytes on the way to it. -/
theorem Inv.replace {s : Net} (inv : Inv s) {side : Bool} {p : Peer} {rest : List UInt8}
    (told : ∀ r ∈ p.calls, Told r) (returned : ∀ r ∈ p.returned, r.line.result.isSome)
    (same : p.calls.flatMap Reading.received ++ rest =
      (s.peer side).calls.flatMap Reading.received ++ s.wire side) :
    Inv { s with peer := update s.peer side p, wire := update s.wire side rest } := by
  refine ⟨fun i => ?_, fun i => ?_, fun i => ?_⟩
  · by_cases own : i = side
    · subst own
      simpa only [Function.update_self] using told
    · simpa only [Function.update_of_ne own] using inv.told i
  · by_cases own : i = side
    · subst own
      simpa only [Function.update_self] using returned
    · simpa only [Function.update_of_ne own] using inv.returned i
  · by_cases own : i = side
    · subst own
      simp only [Function.update_self]
      rw [same]
      exact inv.split i
    · simp only [Function.update_of_ne own]
      exact inv.split i

/-- The same with nothing received. -/
theorem Inv.move {s : Net} (inv : Inv s) {side : Bool} {p : Peer}
    (told : ∀ r ∈ p.calls, Told r) (returned : ∀ r ∈ p.returned, r.line.result.isSome)
    (same : p.calls.flatMap Reading.received = (s.peer side).calls.flatMap Reading.received) :
    Inv { s with peer := update s.peer side p } := by
  have moved := inv.replace told returned (congrArg (· ++ s.wire side) same)
  rwa [Function.update_eq_self] at moved

theorem Inv.send {s : Net} (inv : Inv s) (side : Bool) (bytes : List UInt8) :
    Inv (s.send side bytes) := by
  refine ⟨inv.told, inv.returned, fun i => ?_⟩
  unfold Net.send
  by_cases other : i = !side
  · subst other
    simp only [Function.update_self]
    rw [inv.split, List.append_assoc]
  · simp only [Function.update_of_ne other]
    exact inv.split i

theorem calls_idle {p : Peer} (idle : p.reading = none) : p.calls = p.returned := by
  unfold Peer.calls
  rw [idle]
  exact List.append_nil _

theorem calls_reading {p : Peer} {r : Reading} (reading : p.reading = some r) :
    p.calls = p.returned ++ [r] := by
  unfold Peer.calls
  rw [reading]
  rfl

theorem calls_next (p : Peer) (r : Reading) (got : Option UInt8) :
    (Peer.calls { p with reading := some (r.next got) }).flatMap Reading.received =
      p.returned.flatMap Reading.received ++ r.received ++ got.toList := by
  rw [calls_reading rfl, List.flatMap_append, List.flatMap_singleton, List.append_assoc]
  rfl

/-- A side whose call takes an answer. -/
theorem told_calls_next {s : Net} (inv : Inv s) {side : Bool} {r : Reading}
    (reading : (s.peer side).reading = some r) (waiting : r.line.result = none)
    (got : Option UInt8) :
    ∀ c ∈ Peer.calls { s.peer side with reading := some (r.next got) }, Told c := by
  have calls := calls_reading reading
  intro c member
  rw [calls_reading rfl] at member
  rcases List.mem_append.mp member with old | new
  · exact inv.told side c (calls ▸ List.mem_append_left _ old)
  · rw [List.mem_singleton.mp new]
    refine told_next (inv.told side r (calls ▸ List.mem_append_right _ ?_)) waiting got
    exact List.mem_singleton_self r

theorem step_inv {s s' : Net} {e : Event} (inv : Inv s) (step : Step s e s') : Inv s' := by
  cases step with
  | putline side text limit took =>
      have sent := inv.send side ((cprPutline text limit).take took)
      exact ⟨sent.told, sent.returned, sent.split⟩
  | putch side code took =>
      have sent := inv.send side ((cprPutch code).take took)
      exact ⟨sent.told, sent.returned, sent.split⟩
  | @call side idle text limit echo =>
      refine inv.move (fun r member => ?_) (inv.returned side) ?_
      · rw [calls_reading rfl] at member
        rcases List.mem_append.mp member with old | new
        · exact inv.told side r (calls_idle idle ▸ old)
        · rw [List.mem_singleton.mp new]
          exact told_start text limit echo
      · rw [calls_reading rfl, calls_idle idle, List.flatMap_append, List.flatMap_singleton]
        exact List.append_nil _
  | @recv side r b rest reading waiting front =>
      refine Inv.send (inv.replace (told_calls_next inv reading waiting (some b))
        (inv.returned side) ?_) side _
      rw [calls_next, calls_reading reading, front, List.flatMap_append, List.flatMap_singleton,
        Option.toList_some, List.append_assoc, List.singleton_append]
  | @lost side r reading waiting =>
      refine Inv.send (inv.move (told_calls_next inv reading waiting none) (inv.returned side) ?_)
        side _
      rw [calls_next, calls_reading reading, List.flatMap_append, List.flatMap_singleton]
      exact List.append_nil _
  | @done side r reading returned =>
      have calls := calls_reading reading
      refine inv.move (fun c member => ?_) (fun c member => ?_) ?_
      · rw [calls_idle rfl] at member
        exact inv.told side c (calls ▸ member)
      · rcases List.mem_append.mp member with old | new
        · exact inv.returned side c old
        · rw [List.mem_singleton.mp new]
          exact returned
      · rw [calls_idle rfl, calls]

theorem run_inv {trace : List Event} {s : Net} (run : Run system trace s) : Inv s := by
  refine run.invariant (fun _ s => Inv s) (fun s init => ?_)
    fun _ _ _ _ inv step => step_inv inv step
  obtain ⟨peer, wire, sent, -⟩ := init
  refine ⟨fun side r member => ?_, fun side r member => ?_, fun side => ?_⟩
  · rw [peer] at member
    exact absurd member List.not_mem_nil
  · rw [peer] at member
    exact absurd member List.not_mem_nil
  · rw [peer, wire, sent]
    rfl

/-- In every run what has been sent to a side is split between its calls, in order, and what
is still on the way.  A call that has returned 0 or more has received a line of its own: no
newline before its last byte, which ends the line, and in the buffer what the keys make
of it. -/
theorem calls_split {trace : List Event} {s : Net} (run : Run system trace s) (side : Bool) :
    s.sent side = (s.peer side).calls.flatMap Reading.received ++ s.wire side ∧
      ∀ r ∈ (s.peer side).returned, 2 ≤ r.limit → ∀ v ∈ r.line.result, 0 ≤ v →
        v = (edited r.received).length ∧ Reads r.line.text (edited r.received) ∧
          ∃ before b, r.received = before ++ [b] ∧ 10 ∉ before ∧ EndsLine r.limit before b := by
  have inv := run_inv run
  refine ⟨inv.split side, fun r member room v result up => ?_⟩
  cases inv.told side r (List.mem_append_left _ member) with
  | small small _ _ => exact absurd room (Nat.not_le_of_lt small)
  | waiting line _ => exact absurd (result.symm.trans line.waiting) (Option.some_ne_none _)
  | @ended w text returned line within =>
      obtain rfl : w = v := Option.some.inj (returned.symm.trans result)
      obtain ⟨before, b, split, last⟩ := line.last up
      rw [split, List.dropLast_concat] at within
      refine ⟨?_, line.stack up ▸ line.reads, before, b, split, within, last⟩
      rw [line.value up, line.stack up]

/-- A line with a backspace is received by one call. -/
theorem calls_split_erased :
    ∃ (trace : List Event) (s : Net), Run system trace s ∧ (s.peer true).returned.length = 1 ∧
      s.sent true = (s.peer true).calls.flatMap Reading.received ++ s.wire true := by
  have start : Run system [] ⟨fun _ => ⟨none, []⟩, fun _ => [], fun _ => [], fun _ => []⟩ :=
    .start ⟨rfl, rfl, rfl, rfl⟩
  have typed := ((start.next (.putch false 97 1)).next (.putch false 8 1)).next
    (.putch false 10 1)
  have called := typed.next (@Step.call _ true rfl (fun _ => 0) 80 true)
  have got := ((called.next (@Step.recv _ true _ 97 [8, 10] rfl rfl rfl)).next
    (@Step.recv _ true _ 8 [10] rfl rfl rfl)).next (@Step.recv _ true _ 10 [] rfl rfl rfl)
  have done := got.next (@Step.done _ true _ rfl rfl)
  exact ⟨_, _, done, rfl, (calls_split done true).1⟩

end CprFormal.Socket.Peers
