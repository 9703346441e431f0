import CprFormal.Library.Monitor
import CprFormal.Library.Ring
import CprFormal.Library.Transition

/-!
# The pipeline of `pipeline.c`

Any number of threads call `put_pipeline`, `get_pipeline` and `close_pipeline`
on one pipeline.  Between two accesses to the lock, to `closed` and to the
condition variables a thread only touches fields that the lock protects, so
these statements form one step.  The exchange on `closed`, its loads and the two
broadcasts of a close are steps of their own and may fall anywhere.
-/

namespace CprFormal.Pipeline.Model

open Function (update)
open CprFormal.Library.Monitor CprFormal.Library.Transition

inductive Policy where
  | wait
  | drop
  deriving DecidableEq, Repr

/-- The fields of `pipeline_t` that the lock protects; `none` is `NULL`. -/
structure PipelineT (α : Type) where
  policy : Policy
  head : Nat
  tail : Nat
  count : Nat
  size : Nat
  buf : Nat → Option α

namespace PipelineT

variable {α : Type}

/-- `make_pipeline` clears the whole block. -/
def make (size : Nat) (policy : Policy) : PipelineT α where
  policy := policy
  head := 0
  tail := 0
  count := 0
  size := size
  buf := fun _ => none

/-- The store of `put_pipeline`. -/
def store (pl : PipelineT α) (ptr : Option α) : PipelineT α :=
  { pl with
    buf := update pl.buf pl.tail ptr
    tail := (pl.tail + 1) % pl.size
    count := pl.count + 1 }

/-- The removal of `get_pipeline`, which also clears the slot. -/
def take (pl : PipelineT α) : PipelineT α :=
  { pl with
    buf := update pl.buf pl.head none
    head := (pl.head + 1) % pl.size
    count := pl.count - 1 }

/-- One discarded object, in the drop branch of `put_pipeline` and in the drain
loop of `close_pipeline`; the slot keeps its pointer. -/
def discard (pl : PipelineT α) : PipelineT α :=
  { pl with
    head := (pl.head + 1) % pl.size
    count := pl.count - 1 }

/-- The pointer the next removal takes out. -/
def front (pl : PipelineT α) : Option α := pl.buf pl.head

/-- The queued pointers, oldest first. -/
def contents (pl : PipelineT α) : List (Option α) :=
  CprFormal.Library.Ring.contents pl.buf pl.size pl.head pl.count

end PipelineT

/-- Where a thread stands.  `...Lock` waits for the lock, `...Test` is about to
load `closed`, `...Count` has loaded `false`, `...Sleep` is about to enter
`cnd_wait`, `...Asleep` is in it without a notification, `...Awake` has been
notified and must retake the lock, `...Unlock` is about to unlock and return. -/
inductive Pc (α : Type) where
  | idle
  | getLock
  | getTest
  | getCount
  | getSleep
  | getAsleep
  | getAwake
  | getUnlock (taken : Option (Option α))
  | putLock (ptr : Option α)
  | putTest (ptr : Option α)
  | putCount (ptr : Option α)
  | putSleep (ptr : Option α)
  | putAsleep (ptr : Option α)
  | putAwake (ptr : Option α)
  | putUnlock (ptr : Option α) (stored : Bool)
  | closeExchange
  | closeInput
  | closeOutput
  | closeLock
  | closeDrain

namespace Pc

variable {α : Type}

/-- The points at which a thread owns the lock. -/
def holds : Pc α → Bool
  | getTest | getCount | getSleep | getUnlock _ => true
  | putTest _ | putCount _ | putSleep _ | putUnlock _ _ => true
  | closeDrain => true
  | _ => false

/-- Where a thread that waits for the lock continues once it has it. -/
def entered : Pc α → Option (Pc α)
  | getLock | getAwake => some getTest
  | putLock ptr | putAwake ptr => some (putTest ptr)
  | closeLock => some closeDrain
  | _ => none

/-- `cnd_wait` gives the lock up and falls asleep. -/
def slept : Pc α → Option (Pc α)
  | getSleep => some getAsleep
  | putSleep ptr => some (putAsleep ptr)
  | _ => none

def asleepInput : Pc α → Bool
  | putAsleep _ => true
  | _ => false

def asleepOutput : Pc α → Bool
  | getAsleep => true
  | _ => false

def wake : Pc α → Pc α
  | getAsleep => getAwake
  | putAsleep ptr => putAwake ptr
  | pc => pc

end Pc

/-- The two condition variables of `pipeline_t`. -/
inductive Cond where
  | input
  | output
  deriving DecidableEq, Repr

def Cond.condition {α : Type} : Cond → Condition (Pc α)
  | .input => ⟨Pc.asleepInput, Pc.wake⟩
  | .output => ⟨Pc.asleepOutput, Pc.wake⟩

/-- What a step shows.  `stored`, `taken`, `dropped` and `drained` move a pointer
into or out of the ring; the returns follow when the lock is given up. -/
inductive Event (τ α : Type) where
  | putCall (t : τ) (ptr : Option α)
  | stored (t : τ) (ptr : Option α)
  | dropped (t : τ) (ptr : Option α)
  | taken (t : τ) (ptr : Option α)
  | putReturn (t : τ) (ptr : Option α) (ok : Bool)
  | getCall (t : τ)
  | getReturn (t : τ) (taken : Option (Option α))
  | closeCall (t : τ)
  | broadcast (t : τ) (cond : Cond)
  | drained (t : τ) (ptr : Option α)
  | closeReturn (t : τ) (first : Bool)
  | silent (t : τ)

/-- The thread that made a step. -/
def Event.actor {τ α : Type} : Event τ α → τ
  | putCall t _ | stored t _ | dropped t _ | taken t _ | putReturn t _ _ => t
  | getCall t | getReturn t _ => t
  | closeCall t | broadcast t _ | drained t _ | closeReturn t _ => t
  | silent t => t

structure State (τ α : Type) where
  pl : PipelineT α
  closed : Bool
  lock : Option τ
  pc : τ → Pc α

variable {τ α : Type} [DecidableEq τ]

/-- `if (test) cnd_signal(&cond)`: which thread a signal reaches is arbitrary. -/
def SignalIf (test : Bool) (cond : Cond) (pc pc' : τ → Pc α) : Prop :=
  if test then cond.condition.Signal pc pc' else pc' = pc

/-- One step of one thread. -/
inductive Step : State τ α → Event τ α → State τ α → Prop where
  | putCall {s : State τ α} (t : τ) (ptr : Option α) (here : s.pc t = .idle) :
      Step s (.putCall t ptr) { s with pc := update s.pc t (.putLock ptr) }
  | getCall {s : State τ α} (t : τ) (here : s.pc t = .idle) :
      Step s (.getCall t) { s with pc := update s.pc t .getLock }
  | closeCall {s : State τ α} (t : τ) (here : s.pc t = .idle) :
      Step s (.closeCall t) { s with pc := update s.pc t .closeExchange }
  | acquire {s : State τ α} (t : τ) {next : Pc α}
      (here : (s.pc t).entered = some next) (free : s.lock = none) :
      Step s (.silent t) { s with lock := some t, pc := update s.pc t next }
  | sleep {s : State τ α} (t : τ) {next : Pc α} (here : (s.pc t).slept = some next) :
      Step s (.silent t) { s with lock := none, pc := update s.pc t next }
  | spurious {s : State τ α} (t : τ) (cond : Cond)
      (here : cond.condition.asleep (s.pc t) = true) :
      Step s (.silent t) { s with pc := cond.condition.notify s.pc t }
  -- get_pipeline
  | getTest {s : State τ α} (t : τ) (here : s.pc t = .getTest) :
      Step s (.silent t)
        { s with pc := update s.pc t (if s.closed then .getUnlock none else .getCount) }
  | getTake {s : State τ α} (t : τ) {pc' : τ → Pc α} (here : s.pc t = .getCount)
      (some_queued : 0 < s.pl.count)
      (signal : SignalIf (s.pl.count == s.pl.size) .input s.pc pc') :
      Step s (.taken t s.pl.front)
        { s with pl := s.pl.take, pc := update pc' t (.getUnlock (some s.pl.front)) }
  | getEmpty {s : State τ α} (t : τ) (here : s.pc t = .getCount)
      (none_queued : s.pl.count = 0) :
      Step s (.silent t) { s with pc := update s.pc t .getSleep }
  | getReturn {s : State τ α} (t : τ) {taken : Option (Option α)}
      (here : s.pc t = .getUnlock taken) :
      Step s (.getReturn t taken) { s with lock := none, pc := update s.pc t .idle }
  -- put_pipeline
  | putTest {s : State τ α} (t : τ) {ptr : Option α} (here : s.pc t = .putTest ptr) :
      Step s (.silent t)
        { s with
          pc := update s.pc t (if s.closed then .putUnlock ptr false else .putCount ptr) }
  | putStore {s : State τ α} (t : τ) {ptr : Option α} {pc' : τ → Pc α}
      (here : s.pc t = .putCount ptr) (room : s.pl.count < s.pl.size)
      (signal : SignalIf (s.pl.count == 0) .output s.pc pc') :
      Step s (.stored t ptr)
        { s with pl := s.pl.store ptr, pc := update pc' t (.putUnlock ptr true) }
  | putFull {s : State τ α} (t : τ) {ptr : Option α} (here : s.pc t = .putCount ptr)
      (full : ¬ s.pl.count < s.pl.size) (policy : s.pl.policy = .wait) :
      Step s (.silent t) { s with pc := update s.pc t (.putSleep ptr) }
  | putDrop {s : State τ α} (t : τ) {ptr : Option α} (here : s.pc t = .putCount ptr)
      (full : ¬ s.pl.count < s.pl.size) (policy : s.pl.policy ≠ .wait) :
      Step s (.dropped t s.pl.front)
        { s with pl := s.pl.discard, pc := update s.pc t (.putTest ptr) }
  | putReturn {s : State τ α} (t : τ) {ptr : Option α} {ok : Bool}
      (here : s.pc t = .putUnlock ptr ok) :
      Step s (.putReturn t ptr ok) { s with lock := none, pc := update s.pc t .idle }
  -- close_pipeline
  | closeAgain {s : State τ α} (t : τ) (here : s.pc t = .closeExchange)
      (already : s.closed = true) :
      Step s (.closeReturn t false) { s with pc := update s.pc t .idle }
  | closeFirst {s : State τ α} (t : τ) (here : s.pc t = .closeExchange)
      (opened : s.closed = false) :
      Step s (.silent t) { s with closed := true, pc := update s.pc t .closeInput }
  | closeInput {s : State τ α} (t : τ) (here : s.pc t = .closeInput) :
      Step s (.broadcast t .input)
        { s with pc := update (Cond.input.condition.broadcast s.pc) t .closeOutput }
  | closeOutput {s : State τ α} (t : τ) (here : s.pc t = .closeOutput) :
      Step s (.broadcast t .output)
        { s with pc := update (Cond.output.condition.broadcast s.pc) t .closeLock }
  | closeDrain {s : State τ α} (t : τ) (here : s.pc t = .closeDrain)
      (some_queued : s.pl.count ≠ 0) :
      Step s (.drained t s.pl.front) { s with pl := s.pl.discard }
  | closeReturn {s : State τ α} (t : τ) (here : s.pc t = .closeDrain)
      (none_queued : s.pl.count = 0) :
      Step s (.closeReturn t true) { s with lock := none, pc := update s.pc t .idle }

/-- A fresh pipeline with no thread inside a call. -/
def initial (size : Nat) (policy : Policy) : State τ α where
  pl := PipelineT.make size policy
  closed := false
  lock := none
  pc := fun _ => .idle

/-- All threads of type `τ` working on one pipeline. -/
def system (τ α : Type) [DecidableEq τ] (size : Nat) (policy : Policy) :
    System (State τ α) (Event τ α) where
  init s := s = initial size policy
  step := Step

end CprFormal.Pipeline.Model
