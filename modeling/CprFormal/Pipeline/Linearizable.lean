import CprFormal.Library.Simulation
import CprFormal.Pipeline.Fifo

/-!
# A pipeline is a queue of indivisible operations

The specification knows nothing of a ring, a lock or a condition variable: a
bounded queue on which each put, get and close takes effect in one step, between
its call and its return.  In the code a put or a get takes effect where it loads
`closed` as false with the queue in the right state, since from there on it holds
the lock until it is done; a close may set the flag in between, and its drain
then finds the operation completed.
-/

namespace CprFormal.Pipeline.Linearizable

open Function (update)
open CprFormal.Library.Monitor CprFormal.Library.Simulation CprFormal.Library.Transition
open CprFormal.Pipeline.Model CprFormal.Pipeline.Lock CprFormal.Pipeline.Fifo

/-! ## The specification -/

/-- How far the operation of a thread has come: called, or carried out with its
result still to be returned. -/
inductive Status (α : Type) where
  | idle
  | putting (ptr : Option α)
  | put (ptr : Option α) (ok : Bool)
  | getting
  | got (taken : Option (Option α))
  | closing
  | draining

/-- A queue with its operations under way. -/
@[ext]
structure Queue (τ α : Type) where
  queue : List (Option α)
  closed : Bool
  status : τ → Status α

/-- What the caller of the three operations sees. -/
inductive Call (τ α : Type) where
  | putCall (t : τ) (ptr : Option α)
  | putReturn (t : τ) (ptr : Option α) (ok : Bool)
  | getCall (t : τ)
  | getReturn (t : τ) (taken : Option (Option α))
  | closeCall (t : τ)
  | closeReturn (t : τ) (first : Bool)
  deriving DecidableEq

/-- A call or a return, or a step inside of an operation. -/
inductive Act (τ α : Type) where
  | seen (call : Call τ α)
  | inside (t : τ)

def Act.see {τ α : Type} : Act τ α → Option (Call τ α)
  | seen call => some call
  | inside _ => none

variable {τ α : Type} [DecidableEq τ]

/-- The operations of a queue of at most `size` pointers.  A put on a full queue
waits, or discards the oldest pointer, by policy; after a close nothing enters or
is handed out any more, and the closer discards what is left. -/
inductive Op (size : Nat) (policy : Policy) : Queue τ α → Act τ α → Queue τ α → Prop where
  | putCall {q : Queue τ α} (t : τ) (ptr : Option α) (here : q.status t = .idle) :
      Op size policy q (.seen (.putCall t ptr))
        { q with status := update q.status t (.putting ptr) }
  | enqueue {q : Queue τ α} (t : τ) {ptr : Option α} (here : q.status t = .putting ptr)
      (opened : q.closed = false) (room : q.queue.length < size) :
      Op size policy q (.inside t)
        { q with
          queue := q.queue ++ [ptr]
          status := update q.status t (.put ptr true) }
  | dropOldest {q : Queue τ α} (t : τ) {ptr oldest : Option α} {rest : List (Option α)}
      (here : q.status t = .putting ptr) (opened : q.closed = false)
      (full : q.queue = oldest :: rest) (length : q.queue.length = size)
      (drops : policy = .drop) :
      Op size policy q (.inside t) { q with queue := rest }
  | putFails {q : Queue τ α} (t : τ) {ptr : Option α} (here : q.status t = .putting ptr)
      (closed : q.closed = true) :
      Op size policy q (.inside t) { q with status := update q.status t (.put ptr false) }
  | putReturn {q : Queue τ α} (t : τ) {ptr : Option α} {ok : Bool}
      (here : q.status t = .put ptr ok) :
      Op size policy q (.seen (.putReturn t ptr ok))
        { q with status := update q.status t .idle }
  | getCall {q : Queue τ α} (t : τ) (here : q.status t = .idle) :
      Op size policy q (.seen (.getCall t)) { q with status := update q.status t .getting }
  | dequeue {q : Queue τ α} (t : τ) {oldest : Option α} {rest : List (Option α)}
      (here : q.status t = .getting) (opened : q.closed = false)
      (queued : q.queue = oldest :: rest) :
      Op size policy q (.inside t)
        { q with
          queue := rest
          status := update q.status t (.got (some oldest)) }
  | getFails {q : Queue τ α} (t : τ) (here : q.status t = .getting) (closed : q.closed = true) :
      Op size policy q (.inside t) { q with status := update q.status t (.got none) }
  | getReturn {q : Queue τ α} (t : τ) {taken : Option (Option α)}
      (here : q.status t = .got taken) :
      Op size policy q (.seen (.getReturn t taken)) { q with status := update q.status t .idle }
  | closeCall {q : Queue τ α} (t : τ) (here : q.status t = .idle) :
      Op size policy q (.seen (.closeCall t)) { q with status := update q.status t .closing }
  | closeFirst {q : Queue τ α} (t : τ) (here : q.status t = .closing)
      (opened : q.closed = false) :
      Op size policy q (.inside t)
        { q with
          closed := true
          status := update q.status t .draining }
  | closeAgain {q : Queue τ α} (t : τ) (here : q.status t = .closing)
      (already : q.closed = true) :
      Op size policy q (.seen (.closeReturn t false))
        { q with status := update q.status t .idle }
  | drain {q : Queue τ α} (t : τ) {oldest : Option α} {rest : List (Option α)}
      (here : q.status t = .draining) (queued : q.queue = oldest :: rest) :
      Op size policy q (.inside t) { q with queue := rest }
  | closeReturn {q : Queue τ α} (t : τ) (here : q.status t = .draining)
      (empty : q.queue = []) :
      Op size policy q (.seen (.closeReturn t true))
        { q with status := update q.status t .idle }

/-- All threads of type `τ` working on one queue. -/
def queueSystem (τ α : Type) [DecidableEq τ] (size : Nat) (policy : Policy) :
    System (Queue τ α) (Act τ α) where
  init q := q = ⟨[], false, fun _ => .idle⟩
  step := Op size policy

/-- What is seen of a step of the code. -/
def see : Event τ α → Option (Call τ α)
  | .putCall t ptr => some (.putCall t ptr)
  | .putReturn t ptr ok => some (.putReturn t ptr ok)
  | .getCall t => some (.getCall t)
  | .getReturn t taken => some (.getReturn t taken)
  | .closeCall t => some (.closeCall t)
  | .closeReturn t first => some (.closeReturn t first)
  | _ => none

/-- The status of a thread.  One that has loaded `closed` as false is done if the
ring lets it. -/
def statusOf (pl : PipelineT α) : Pc α → Status α
  | .idle => .idle
  | .getCount => if 0 < pl.count then .got (some pl.front) else .getting
  | .getLock | .getTest | .getSleep | .getAsleep | .getAwake => .getting
  | .getUnlock taken => .got taken
  | .putCount ptr => if pl.count < pl.size then .put ptr true else .putting ptr
  | .putLock ptr | .putTest ptr | .putSleep ptr | .putAsleep ptr | .putAwake ptr => .putting ptr
  | .putUnlock ptr ok => .put ptr ok
  | .closeExchange => .closing
  | .closeInput | .closeOutput | .closeLock | .closeDrain => .draining

/-- The queue when the owner of the lock stands at `pc`. -/
def queueOf (pl : PipelineT α) : Pc α → List (Option α)
  | .getCount => pl.contents.tail
  | .putCount ptr =>
      if pl.count < pl.size then pl.contents ++ [ptr]
      else if pl.policy = .wait then pl.contents else pl.contents.tail
  | _ => pl.contents

/-- The queue a state of the code stands for. -/
def abs (s : State τ α) : Queue τ α where
  queue :=
    match s.lock with
    | some t => queueOf s.pl (s.pc t)
    | none => s.pl.contents
  closed := s.closed
  status t := statusOf s.pl (s.pc t)

omit [DecidableEq τ] in
theorem statusOf_wake (pl : PipelineT α) (pc : Pc α) : statusOf pl pc.wake = statusOf pl pc := by
  cases pc <;> rfl

omit [DecidableEq τ] in
/-- Only the owner of the lock depends on the ring. -/
theorem statusOf_free (pl pl' : PipelineT α) {pc : Pc α} (free : pc.holds = false) :
    statusOf pl pc = statusOf pl' pc := by
  cases pc <;> first | rfl | cases free

omit [DecidableEq τ] in
theorem statusOf_entered (pl : PipelineT α) {pc next : Pc α} (here : pc.entered = some next) :
    statusOf pl next = statusOf pl pc ∧ queueOf pl next = pl.contents := by
  cases pc <;> simp_all [Pc.entered] <;> subst here <;> exact ⟨rfl, rfl⟩

omit [DecidableEq τ] in
theorem statusOf_slept (pl : PipelineT α) {pc next : Pc α} (here : pc.slept = some next) :
    statusOf pl next = statusOf pl pc ∧ queueOf pl pc = pl.contents := by
  cases pc <;> simp_all [Pc.slept] <;> subst here <;> exact ⟨rfl, rfl⟩

/-- Only the owner of the lock changes the ring. -/
theorem step_ring_owner {s s' : State τ α} {e : Event τ α} (step : Step s e s')
    (free : (s.pc e.actor).holds = false) : s'.pl = s.pl := by
  cases step with
  | getTake t here | putStore t here | putDrop t here | closeDrain t here =>
      rw [Event.actor, here] at free
      cases free
  | _ => rfl

omit [DecidableEq τ] in
theorem abs_queue_owner {s : State τ α} (owner : Owner s) {t : τ}
    (held : (s.pc t).holds = true) : (abs s).queue = queueOf s.pl (s.pc t) := by
  rw [abs, (owner t).mp held]

omit [DecidableEq τ] in
theorem abs_queue_free {s : State τ α} (free : s.lock = none) :
    (abs s).queue = s.pl.contents := by
  rw [abs, free]

/-- A step leaves the status of the other threads alone. -/
theorem step_status {s s' : State τ α} {e : Event τ α} (owner : Owner s) (step : Step s e s') :
    (abs s').status =
      update (abs s).status e.actor (statusOf s'.pl (s'.pc e.actor)) := by
  funext u
  by_cases own : u = e.actor
  · subst own
    simp [abs]
  · rw [Function.update_of_ne own]
    have kept : statusOf s.pl (s'.pc u) = statusOf s.pl (s.pc u) :=
      step_others (statusOf_wake s.pl) owner step own
    cases held : (s.pc e.actor).holds with
    | false =>
        change statusOf s'.pl (s'.pc u) = statusOf s.pl (s.pc u)
        rw [step_ring_owner step held, kept]
    | true =>
        have free : (s'.pc u).holds = false := by
          rw [step_others holds_wake owner step own]
          cases both : (s.pc u).holds with
          | false => rfl
          | true =>
              have same := ((owner u).mp both).symm.trans ((owner _).mp held)
              exact absurd (Option.some.inj same) own
        exact (statusOf_free s'.pl s.pl free).trans kept

/-- The queue after a step, by where its thread stands. -/
theorem step_queue {s s' : State τ α} {e : Event τ α} (owner : Owner s) (step : Step s e s') :
    (abs s').queue =
      if (s'.pc e.actor).holds then queueOf s'.pl (s'.pc e.actor)
      else if (s.pc e.actor).holds then s'.pl.contents else (abs s).queue := by
  have move := step_move owner step
  cases after : (s'.pc e.actor).holds with
  | true => simpa using abs_queue_owner (step_owner owner step) after
  | false =>
      cases before : (s.pc e.actor).holds with
      | true => simpa using abs_queue_free (show s'.lock = none by simp [move.lock, after, before])
      | false =>
          have same : s'.lock = s.lock := by simp [move.lock, after, before]
          simp only [abs, same, step_ring_owner step before]
          cases held : s.lock with
          | none => simp
          | some u =>
              have other : u ≠ e.actor := fun eq => by
                rw [← eq, (owner u).mpr held] at before
                cases before
              have blind (pc : Pc α) : queueOf s.pl pc.wake = queueOf s.pl pc := by
                cases pc <;> rfl
              simpa using step_others blind owner step other

/-- Nothing of the queue has changed in a step that leaves these three alone. -/
theorem answer_stutter {size : Nat} {policy : Policy} {s s' : State τ α} {e : Event τ α}
    (owner : Owner s) (step : Step s e s') (queue : (abs s').queue = (abs s).queue)
    (closed : s'.closed = s.closed)
    (status : statusOf s'.pl (s'.pc e.actor) = statusOf s.pl (s.pc e.actor))
    (unseen : see e = none) :
    Answer (queueSystem τ α size policy) Act.see (see e) (abs s) (abs s') := by
  refine .stutter (Queue.ext queue closed ?_) unseen
  rw [step_status owner step, status]
  exact Function.update_eq_self _ _

/-- A step that moves its thread from one status to another is an operation that
does so. -/
theorem answer_move {size : Nat} {policy : Policy} {s s' : State τ α} {e : Event τ α}
    {queue : List (Option α)} {status : Status α} (owner : Owner s) (step : Step s e s')
    (queued : (abs s').queue = queue)
    (reached : statusOf s'.pl (s'.pc e.actor) = status) (act : Act τ α)
    (op : Op size policy (abs s) act
      ⟨queue, s'.closed, update (abs s).status e.actor status⟩) (shown : act.see = see e) :
    Answer (queueSystem τ α size policy) Act.see (see e) (abs s) (abs s') := by
  refine .move act ?_ shown
  have after : abs s' = ⟨queue, s'.closed, update (abs s).status e.actor status⟩ := by
    refine Queue.ext queued rfl ?_
    rw [step_status owner step, reached]
  rw [after]
  exact op

/-- A step that keeps the status of its thread but shortens the queue. -/
theorem answer_shorten {size : Nat} {policy : Policy} {s s' : State τ α} {e : Event τ α}
    {queue : List (Option α)} (owner : Owner s) (step : Step s e s')
    (queued : (abs s').queue = queue) (closed : s'.closed = s.closed)
    (kept : statusOf s'.pl (s'.pc e.actor) = statusOf s.pl (s.pc e.actor)) (act : Act τ α)
    (op : Op size policy (abs s) act { abs s with queue := queue }) (shown : act.see = see e) :
    Answer (queueSystem τ α size policy) Act.see (see e) (abs s) (abs s') := by
  refine .move act ?_ shown
  have after : abs s' = { abs s with queue := queue } := by
    refine Queue.ext queued closed ?_
    rw [step_status owner step, kept]
    exact Function.update_eq_self _ _
  rw [after]
  exact op

omit [DecidableEq τ] in
/-- The queue before a step of a thread that stands at `pc` and owns the lock. -/
theorem queue_before {s : State τ α} {t : τ} {pc : Pc α} (owner : Owner s) (here : s.pc t = pc)
    (held : pc.holds = true) : (abs s).queue = queueOf s.pl pc := by
  rw [abs_queue_owner owner (here ▸ held), here]

omit [DecidableEq τ] in
theorem contents_length (pl : PipelineT α) : pl.contents.length = pl.count := by
  simp [PipelineT.contents, CprFormal.Library.Ring.contents]

/-- A get takes effect where it finds the pipeline open and not empty. -/
theorem answer_getTest {size : Nat} {policy : Policy} {s : State τ α} {t : τ}
    (owner : Owner s) (ring : RingOk s.pl) (here : s.pc t = .getTest) :
    Answer (queueSystem τ α size policy) Act.see (see (.silent t : Event τ α)) (abs s)
      (abs { s with pc := update s.pc t (if s.closed then .getUnlock none else .getCount) }) := by
  have step := Step.getTest t here
  have before : (abs s).queue = s.pl.contents := queue_before owner here rfl
  have status : (abs s).status t = .getting := congrArg (statusOf s.pl) here
  by_cases closed : s.closed = true
  · rw [if_pos closed] at step ⊢
    have after := queue_before (step_owner owner step) (Function.update_self ..) rfl
    exact answer_move owner step (after.trans before.symm) (by simp [Event.actor, statusOf])
      (.inside t) (.getFails t status closed) rfl
  · rw [if_neg closed] at step ⊢
    have after := step_queue owner step
    simp only [Event.actor, Function.update_self, Pc.holds, if_true, queueOf] at after
    by_cases queued : 0 < s.pl.count
    · have split : (abs s).queue = s.pl.front :: s.pl.contents.tail := by
        rw [before, take_contents ring queued, List.tail_cons]
      exact answer_move owner step after (by simp [Event.actor, statusOf, queued])
        (.inside t) (.dequeue t status (Bool.eq_false_of_not_eq_true closed) split) rfl
    · have empty : s.pl.contents = [] := by
        rw [← List.length_eq_zero_iff, contents_length]
        omega
      refine answer_stutter owner step ?_ rfl (by simp [Event.actor, statusOf, queued, here]) rfl
      rw [after, before, empty, List.tail_nil]

/-- A put takes effect where it finds the pipeline open with room; on a full one
that drops, this is where the oldest pointer goes. -/
theorem answer_putTest {s : State τ α} {t : τ} {ptr : Option α} (owner : Owner s)
    (ring : RingOk s.pl) (here : s.pc t = .putTest ptr) :
    Answer (queueSystem τ α s.pl.size s.pl.policy) Act.see (see (.silent t : Event τ α)) (abs s)
      (abs { s with
        pc := update s.pc t (if s.closed then .putUnlock ptr false else .putCount ptr) }) := by
  have step := Step.putTest t here
  have before : (abs s).queue = s.pl.contents := queue_before owner here rfl
  have status : (abs s).status t = .putting ptr := congrArg (statusOf s.pl) here
  by_cases closed : s.closed = true
  · rw [if_pos closed] at step ⊢
    have after := queue_before (step_owner owner step) (Function.update_self ..) rfl
    exact answer_move owner step (after.trans before.symm) (by simp [Event.actor, statusOf])
      (.inside t) (.putFails t status closed) rfl
  · rw [if_neg closed] at step ⊢
    have opened : (abs s).closed = false := Bool.eq_false_of_not_eq_true closed
    have after := step_queue owner step
    simp only [Event.actor, Function.update_self, Pc.holds, if_true, queueOf] at after
    have length : (abs s).queue.length = s.pl.count := by rw [before, contents_length]
    by_cases room : s.pl.count < s.pl.size
    · rw [if_pos room, ← before] at after
      exact answer_move owner step after (by simp [Event.actor, statusOf, room])
        (.inside t) (.enqueue t status opened (by omega)) rfl
    · rw [if_neg room] at after
      have kept : statusOf s.pl (.putCount ptr) = statusOf s.pl (s.pc t) := by
        simp [statusOf, room, here]
      by_cases waits : s.pl.policy = .wait
      · rw [if_pos waits, ← before] at after
        exact answer_stutter owner step after rfl (by simpa [Event.actor] using kept) rfl
      · rw [if_neg waits] at after
        have full := queued_of_full ring room
        have split : (abs s).queue = s.pl.front :: s.pl.contents.tail := by
          rw [before, take_contents ring full, List.tail_cons]
        have drops : s.pl.policy = .drop := by
          cases policy : s.pl.policy with
          | wait => exact absurd policy waits
          | drop => rfl
        have bound := ring.count
        exact answer_shorten owner step after rfl (by simpa [Event.actor] using kept)
          (.inside t) (.dropOldest t status opened split (by omega) drops) rfl

/-! ## Every step -/

/-- A step of the code is one operation of the queue, or none of its doing. -/
theorem step_answer {s s' : State τ α} {e : Event τ α} (owner : Owner s) (ring : RingOk s.pl)
    (step : Step s e s') :
    Answer (queueSystem τ α s.pl.size s.pl.policy) Act.see (see e) (abs s) (abs s') := by
  have after := step_queue owner step
  cases step with
  | putCall t ptr here =>
      simp [Event.actor, here, Pc.holds] at after
      exact answer_move owner (.putCall t ptr here) after (by simp [Event.actor, statusOf])
        (.seen (.putCall t ptr)) (.putCall t ptr (congrArg (statusOf s.pl) here)) rfl
  | getCall t here =>
      simp [Event.actor, here, Pc.holds] at after
      exact answer_move owner (.getCall t here) after (by simp [Event.actor, statusOf])
        (.seen (.getCall t)) (.getCall t (congrArg (statusOf s.pl) here)) rfl
  | closeCall t here =>
      simp [Event.actor, here, Pc.holds] at after
      exact answer_move owner (.closeCall t here) after (by simp [Event.actor, statusOf])
        (.seen (.closeCall t)) (.closeCall t (congrArg (statusOf s.pl) here)) rfl
  | acquire t here free =>
      simp only [Event.actor, Function.update_self, (entered_holds here).1, if_true,
        (statusOf_entered s.pl here).2] at after
      exact answer_stutter owner (.acquire t here free) (after.trans (abs_queue_free free).symm)
        rfl (by simp [Event.actor, (statusOf_entered s.pl here).1]) rfl
  | sleep t here =>
      have before := abs_queue_owner owner (slept_holds here).2
      rw [(statusOf_slept s.pl here).2] at before
      simp [Event.actor, (slept_holds here)] at after
      exact answer_stutter owner (.sleep t here) (after.trans before.symm) rfl
        (by simp [Event.actor, (statusOf_slept s.pl here).1]) rfl
  | spurious t c here =>
      have kept : (abs { s with pc := c.condition.notify s.pc t }).queue = (abs s).queue := by
        rw [after]
        simp [Event.actor, Condition.notify, asleep_not_holds here]
      exact answer_stutter owner (.spurious t c here) kept rfl
        (by simp [Event.actor, Condition.notify, statusOf_wake]) rfl
  | getTest t here => exact answer_getTest owner ring here
  | getTake t here queued signal =>
      have before : (abs s).queue = s.pl.contents.tail := queue_before owner here rfl
      rw [take_contents ring queued, List.tail_cons] at before
      simp [Event.actor, Pc.holds, queueOf] at after
      exact answer_stutter owner (.getTake t here queued signal) (after.trans before.symm) rfl
        (by simp [Event.actor, here, statusOf, queued]) rfl
  | getEmpty t here empty =>
      have before : (abs s).queue = s.pl.contents.tail := queue_before owner here rfl
      have none_left : s.pl.contents = [] := by
        rw [← List.length_eq_zero_iff, contents_length, empty]
      simp [Event.actor, Pc.holds, queueOf] at after
      exact answer_stutter owner (.getEmpty t here empty)
        (by rw [after, before, none_left, List.tail_nil]) rfl
        (by simp [Event.actor, here, statusOf, empty]) rfl
  | getReturn t here =>
      have before : (abs s).queue = s.pl.contents := queue_before owner here rfl
      simp [Event.actor, here, Pc.holds] at after
      exact answer_move owner (.getReturn t here) (after.trans before.symm)
        (by simp [Event.actor, statusOf]) (.seen (.getReturn t _))
        (.getReturn t (congrArg (statusOf s.pl) here)) rfl
  | putTest t here => exact answer_putTest owner ring here
  | putStore t here room signal =>
      have before := queue_before owner here rfl
      simp [queueOf, room, ← store_contents ring room] at before
      simp [Event.actor, Pc.holds, queueOf] at after
      exact answer_stutter owner (.putStore t here room signal) (after.trans before.symm) rfl
        (by simp [Event.actor, here, statusOf, room]) rfl
  | putFull t here full waits =>
      have before := queue_before owner here rfl
      simp [queueOf, full, waits] at before
      simp [Event.actor, Pc.holds, queueOf] at after
      exact answer_stutter owner (.putFull t here full waits) (after.trans before.symm) rfl
        (by simp [Event.actor, here, statusOf, full]) rfl
  | putDrop t here full drops =>
      have before := queue_before owner here rfl
      simp only [queueOf, if_neg full, if_neg drops] at before
      rw [discard_contents ring (queued_of_full ring full), List.tail_cons] at before
      simp [Event.actor, Pc.holds, queueOf] at after
      exact answer_stutter owner (.putDrop t here full drops) (after.trans before.symm) rfl
        (by simp [Event.actor, here, statusOf, full]) rfl
  | putReturn t here =>
      have before : (abs s).queue = s.pl.contents := queue_before owner here rfl
      simp [Event.actor, here, Pc.holds] at after
      exact answer_move owner (.putReturn t here) (after.trans before.symm)
        (by simp [Event.actor, statusOf]) (.seen (.putReturn t _ _))
        (.putReturn t (congrArg (statusOf s.pl) here)) rfl
  | closeAgain t here already =>
      simp [Event.actor, here, Pc.holds] at after
      exact answer_move owner (.closeAgain t here already) after
        (by simp [Event.actor, statusOf]) (.seen (.closeReturn t false))
        (.closeAgain t (congrArg (statusOf s.pl) here) already) rfl
  | closeFirst t here opened =>
      simp [Event.actor, here, Pc.holds] at after
      exact answer_move owner (.closeFirst t here opened) after
        (by simp [Event.actor, statusOf]) (.inside t)
        (.closeFirst t (congrArg (statusOf s.pl) here) opened) rfl
  | closeInput t here =>
      simp [Event.actor, here, Pc.holds] at after
      exact answer_stutter owner (.closeInput t here) after rfl
        (by simp [Event.actor, here, statusOf]) rfl
  | closeOutput t here =>
      simp [Event.actor, here, Pc.holds] at after
      exact answer_stutter owner (.closeOutput t here) after rfl
        (by simp [Event.actor, here, statusOf]) rfl
  | closeDrain t here queued =>
      have before : (abs s).queue = s.pl.contents := queue_before owner here rfl
      rw [discard_contents ring (Nat.pos_of_ne_zero queued)] at before
      simp [Event.actor, here, Pc.holds, queueOf] at after
      exact answer_shorten owner (.closeDrain t here queued) after rfl
        (by simp [Event.actor, here, statusOf]) (.inside t)
        (.drain t (congrArg (statusOf s.pl) here) before) rfl
  | closeReturn t here empty =>
      have before : (abs s).queue = s.pl.contents := queue_before owner here rfl
      have none_left : s.pl.contents = [] := by
        rw [← List.length_eq_zero_iff, contents_length, empty]
      simp [Event.actor, here, Pc.holds] at after
      exact answer_move owner (.closeReturn t here empty) (after.trans before.symm)
        (by simp [Event.actor, statusOf]) (.seen (.closeReturn t true))
        (.closeReturn t (congrArg (statusOf s.pl) here) (before.trans none_left)) rfl

/-- The code is simulated by the queue of indivisible operations. -/
theorem simulates {size : Nat} (policy : Policy) (hsize : 1 ≤ size) :
    Simulates (system τ α size policy) (queueSystem τ α size policy) see Act.see abs
      (fun s => ∃ trace, Run (system τ α size policy) trace s) where
  start s hs := by
    have fresh : s = initial size policy := hs
    rw [fresh]
    rfl
  answer s e s' reached step := by
    obtain ⟨trace, run⟩ := reached
    have inv := run_inv hsize run
    have answer := step_answer inv.owner inv.ring step
    rwa [inv.shape.1, inv.shape.2] at answer

/-- However the threads interleave, what they see of their puts, gets and closes
is a history of the queue whose operations take effect one at a time, each between
its call and its return.  While the lock is free the ring holds that queue. -/
theorem pipeline_linearizable {size : Nat} {policy : Policy} (hsize : 1 ≤ size)
    {trace : List (Event τ α)} {s : State τ α} (run : Run (system τ α size policy) trace s) :
    ∃ (acts : List (Act τ α)) (q : Queue τ α),
      Run (queueSystem τ α size policy) acts q ∧
      history Act.see acts = history see trace ∧
      q.closed = s.closed ∧ (s.lock = none → q.queue = s.pl.contents) := by
  obtain ⟨acts, matched, same⟩ := (simulates policy hsize).run (fun _ _ run => ⟨_, run⟩) run
  exact ⟨acts, abs s, matched, same, rfl, abs_queue_free⟩

/-- A full dropping pipeline loses its oldest pointer to the next put. -/
theorem pipeline_linearizable_drop :
    ∃ (acts : List (Act Unit Nat)) (q : Queue Unit Nat),
      Run (queueSystem Unit Nat 1 .drop) acts q ∧
      history Act.see acts =
        [.putCall () (some 1), .putReturn () (some 1) true,
          .putCall () (some 2), .putReturn () (some 2) true] ∧
      q.queue = [some 2] := by
  obtain ⟨s, run, free, left⟩ := overwrite_run
  obtain ⟨acts, q, matched, same, _, queue⟩ := pipeline_linearizable (by decide) run
  exact ⟨acts, q, matched, same, (queue free).trans left⟩

/-! ## After a close -/

/-- The call that begins an operation of `u`. -/
def Call.begins (u : τ) : Call τ α → Prop
  | putCall t _ | getCall t => t = u
  | _ => False

/-- The return that ends an operation of `u`. -/
def Call.ends (u : τ) : Call τ α → Prop
  | putReturn t _ _ | getReturn t _ => t = u
  | _ => False

/-- An operation that has not taken effect, or has failed. -/
def Status.fruitless : Status α → Prop
  | putting _ | put _ false | getting | got none => True
  | _ => False

/-- The flag is never cleared. -/
theorem op_closed {size : Nat} {policy : Policy} {q q' : Queue τ α} {a : Act τ α}
    (op : Op size policy q a q') (closed : q.closed = true) : q'.closed = true := by
  cases op with
  | closeFirst t here opened => rfl
  | _ => exact closed

/-- Only a set flag is drained behind. -/
theorem op_draining {size : Nat} {policy : Policy} {q q' : Queue τ α} {a : Act τ α}
    (op : Op size policy q a q') (flag : ∀ u, q.status u = .draining → q.closed = true) (u : τ)
    (inside : q'.status u = .draining) : q'.closed = true := by
  cases op with
  | closeFirst t here opened => rfl
  | dropOldest t here | drain t here => exact flag u inside
  | putCall t _ here | enqueue t here | putFails t here | putReturn t here | getCall t here
  | dequeue t here | getFails t here | getReturn t here | closeCall t here
  | closeAgain t here | closeReturn t here =>
      by_cases own : u = t
      · subst own
        simp at inside
      · simp only [Function.update_of_ne own] at inside
        exact flag u inside

/-- A close that has returned has left the queue closed. -/
theorem closed_of_returned {size : Nat} {policy : Policy} {acts : List (Act τ α)}
    {q : Queue τ α} (run : Run (queueSystem τ α size policy) acts q) :
    (∀ u, q.status u = .draining → q.closed = true) ∧
      ∀ t first, Call.closeReturn t first ∈ history Act.see acts → q.closed = true := by
  refine Run.invariant (fun acts q => (∀ u, q.status u = .draining → q.closed = true) ∧
    ∀ t first, Call.closeReturn t first ∈ history Act.see acts → q.closed = true) ?_ ?_ run
  · rintro q rfl
    simp [history]
  · rintro acts q a q' ⟨flag, returned⟩ op
    refine ⟨op_draining op flag, ?_⟩
    intro t first member
    rw [history_append] at member
    rcases List.mem_append.mp member with earlier | now
    · exact op_closed op (returned t first earlier)
    · cases op with
      | closeAgain u here already => exact already
      | closeReturn u here empty => exact flag u here
      | _ => simp [history, Act.see] at now

/-- On a closed queue an operation without effect stays without one until it returns. -/
theorem op_fruitless {size : Nat} {policy : Policy} {q q' : Queue τ α} {a : Act τ α} {u : τ}
    (op : Op size policy q a q') (closed : q.closed = true) (before : (q.status u).fruitless)
    (inside : ∀ c, a = .seen c → ¬ c.ends u) : (q'.status u).fruitless := by
  cases op with
  | enqueue t here opened room =>
      rw [opened] at closed
      cases closed
  | dequeue t here opened queued =>
      rw [opened] at closed
      cases closed
  | dropOldest t here | drain t here => exact before
  | putFails t here | getFails t here =>
      by_cases own : u = t
      · subst own
        simp [Status.fruitless]
      · simpa only [Function.update_of_ne own] using before
  | putReturn t here | getReturn t here =>
      have other : u ≠ t := fun same => inside _ rfl same.symm
      simpa only [Function.update_of_ne other] using before
  | putCall t _ here | getCall t here | closeCall t here | closeFirst t here
  | closeAgain t here | closeReturn t here =>
      have other : u ≠ t := fun same => by
        rw [same, here] at before
        exact before
      simpa only [Function.update_of_ne other] using before

/-- The call of an operation has no effect yet. -/
theorem op_begins {size : Nat} {policy : Policy} {q q' : Queue τ α} {c : Call τ α} {u : τ}
    (op : Op size policy q (.seen c) q') (begins : c.begins u) : (q'.status u).fruitless := by
  cases op with
  | putCall t ptr here | getCall t here =>
      have own : t = u := begins
      subst own
      simp [Status.fruitless]
  | putReturn t here | getReturn t here | closeCall t here | closeAgain t here
  | closeReturn t here => exact begins.elim

/-- An operation called after a close has returned has no effect. -/
theorem fruitless_after_close {size : Nat} {policy : Policy} {acts : List (Act τ α)}
    {q : Queue τ α} (run : Run (queueSystem τ α size policy) acts q)
    {before inside : List (Call τ α)} {c : Call τ α} {t u : τ} {first : Bool}
    (shown : history Act.see acts = before ++ c :: inside)
    (returned : .closeReturn t first ∈ before) (begins : c.begins u)
    (unended : ∀ d ∈ inside, ¬ d.ends u) : (q.status u).fruitless := by
  induction run generalizing inside with
  | start hs => simp [history] at shown
  | @next acts q q' a run op ih =>
      cases a with
      | inside v =>
          rw [history_append] at shown
          simp only [history, List.filterMap_cons, List.filterMap_nil, Act.see,
            List.append_nil] at shown
          have closed := (closed_of_returned run).2 t first
            (by rw [history, shown]; exact List.mem_append_left _ returned)
          exact op_fruitless op closed (ih shown unended) (fun d same => by cases same)
      | seen d =>
          rw [history_append] at shown
          simp only [history, List.filterMap_cons, List.filterMap_nil, Act.see] at shown
          rcases List.eq_nil_or_concat inside with rfl | ⟨inside', last, rfl⟩
          · obtain ⟨_, same⟩ := List.append_inj' shown rfl
            rw [List.singleton_inj.mp same] at op
            exact op_begins op begins
          · rw [List.concat_eq_append, ← List.cons_append, ← List.append_assoc] at shown
            obtain ⟨earlier, same⟩ := List.append_inj' shown rfl
            have closed := (closed_of_returned run).2 t first
              (by rw [history, earlier]; exact List.mem_append_left _ returned)
            have still := ih earlier fun d member =>
              unended d (by simp [member])
            refine op_fruitless op closed still fun d' now => ?_
            cases now
            rw [List.singleton_inj.mp same]
            exact unended last (by simp)

/-- In the code, whatever is called after any close has returned gives nothing:
a get that was called then returns `NULL`, a put that was called then returns false. -/
theorem calls_after_close_fail {size : Nat} {policy : Policy} (hsize : 1 ≤ size)
    {trace : List (Event τ α)} {s s' : State τ α} (run : Run (system τ α size policy) trace s)
    {before inside : List (Call τ α)} {c : Call τ α} {t u : τ} {first : Bool}
    (shown : history see trace = before ++ c :: inside)
    (returned : .closeReturn t first ∈ before) (begins : c.begins u)
    (unended : ∀ d ∈ inside, ¬ d.ends u) :
    (∀ taken, Step s (.getReturn u taken) s' → taken = none) ∧
    (∀ ptr ok, Step s (.putReturn u ptr ok) s' → ok = false) := by
  obtain ⟨acts, matched, same⟩ := (simulates policy hsize).run (fun _ _ run => ⟨_, run⟩) run
  have fruitless := fruitless_after_close matched (same.trans shown) returned begins unended
  constructor
  · intro taken step
    cases step with
    | getReturn _ here =>
        have status : (abs s).status u = .got taken := congrArg (statusOf s.pl) here
        rw [status] at fruitless
        cases taken with
        | none => rfl
        | some ptr => exact fruitless.elim
  · intro ptr ok step
    cases step with
    | putReturn _ here =>
        have status : (abs s).status u = .put ptr ok := congrArg (statusOf s.pl) here
        rw [status] at fruitless
        cases ok with
        | false => rfl
        | true => exact fruitless.elim

/-- A consumer that calls behind a finished close comes back empty-handed. -/
theorem calls_after_close_fail_get :
    ∃ (trace : List (Event Unit Nat)) (s s' : State Unit Nat),
      Run (system Unit Nat 1 .wait) trace s ∧ Step s (.getReturn () none) s' ∧
      ∀ taken, Step s (.getReturn () taken) s' → taken = none := by
  have start : Run (system Unit Nat 1 .wait) [] (initial 1 .wait) := .start rfl
  have flagged := (start.next (Step.closeCall () rfl)).next (.closeFirst () rfl rfl)
  have swept := (flagged.next (.closeInput () rfl)).next (.closeOutput () rfl)
  have closed := (swept.next (.acquire () rfl rfl)).next (.closeReturn () rfl rfl)
  have called := closed.next (.getCall () rfl)
  have tested := (called.next (.acquire () rfl rfl)).next (.getTest () rfl)
  have returned : Call.closeReturn () true ∈
      ([.closeCall (), .closeReturn () true] : List (Call Unit Nat)) := by simp
  have begins : (Call.getCall () : Call Unit Nat).begins () := rfl
  have unended : ∀ d ∈ ([] : List (Call Unit Nat)), ¬ d.ends () := by simp
  exact ⟨_, _, _, tested, .getReturn () rfl,
    (calls_after_close_fail (by decide) tested rfl returned begins unended).1⟩

end CprFormal.Pipeline.Linearizable
