import CprFormal.Pipeline.Lock

/-!
# First in, first out

The ring always holds what was stored and not yet taken out, in order.  What
was stored is what the puts that returned true accepted, up to the one pointer
the owner of the lock may carry to its return; the same holds for removals.
-/

namespace CprFormal.Pipeline.Fifo

open Function (update)
open CprFormal.Library CprFormal.Library.Monitor CprFormal.Library.Transition
open CprFormal.Pipeline.Model CprFormal.Pipeline.Lock

variable {τ α : Type}

/-- The pointers of the puts that returned true, in order of acceptance. -/
def accepted (trace : List (Event τ α)) : List (Option α) :=
  trace.filterMap fun
    | .putReturn _ ptr true => some ptr
    | _ => none

/-- The pointers returned by a get, discarded by a drop put or by a close. -/
def removed (trace : List (Event τ α)) : List (Option α) :=
  trace.filterMap fun
    | .getReturn _ (some ptr) => some ptr
    | .dropped _ ptr => some ptr
    | .drained _ ptr => some ptr
    | _ => none

/-- The pointers written into the ring. -/
def pushed (trace : List (Event τ α)) : List (Option α) :=
  trace.filterMap fun
    | .stored _ ptr => some ptr
    | _ => none

/-- The pointers that left the ring. -/
def popped (trace : List (Event τ α)) : List (Option α) :=
  trace.filterMap fun
    | .taken _ ptr => some ptr
    | .dropped _ ptr => some ptr
    | .drained _ ptr => some ptr
    | _ => none

/-- Whether thread `t` has stored a pointer since its last call of a put. -/
def storedSinceCall [DecidableEq τ] (t : τ) (trace : List (Event τ α)) : Bool :=
  trace.foldl (fun stored e =>
    match e with
    | .putCall u _ => if u = t then false else stored
    | .stored u _ => if u = t then true else stored
    | _ => stored) false

/-- The ring of a pipeline with at least one slot is well formed. -/
structure RingOk (pl : PipelineT α) : Prop where
  head : pl.head < pl.size
  count : pl.count ≤ pl.size
  tail : pl.tail = (pl.head + pl.count) % pl.size

theorem make_ringOk {size : Nat} (policy : Policy) (hsize : 1 ≤ size) :
    RingOk (PipelineT.make size policy : PipelineT α) where
  head := hsize
  count := Nat.zero_le _
  tail := by simp [PipelineT.make]

theorem store_ringOk {pl : PipelineT α} (ok : RingOk pl) (room : pl.count < pl.size)
    (ptr : Option α) : RingOk (pl.store ptr) where
  head := ok.head
  count := room
  tail := Ring.tail_append ok.tail

theorem store_contents {pl : PipelineT α} (ok : RingOk pl) (room : pl.count < pl.size)
    (ptr : Option α) : (pl.store ptr).contents = pl.contents ++ [ptr] := by
  unfold PipelineT.contents PipelineT.store
  rw [ok.tail]
  exact Ring.contents_append pl.buf ptr room

theorem discard_ringOk {pl : PipelineT α} (ok : RingOk pl) (queued : 0 < pl.count) :
    RingOk pl.discard where
  head := Nat.mod_lt _ (Nat.lt_of_le_of_lt (Nat.zero_le _) ok.head)
  count := Nat.le_trans (Nat.sub_le _ _) ok.count
  tail := Ring.tail_removed queued ok.tail

theorem discard_contents {pl : PipelineT α} (ok : RingOk pl) (queued : 0 < pl.count) :
    pl.contents = pl.front :: pl.discard.contents := by
  have split := Ring.contents_uncons pl.buf (pl.count - 1) ok.head
  rwa [Nat.sub_add_cancel queued] at split

theorem take_ringOk {pl : PipelineT α} (ok : RingOk pl) (queued : 0 < pl.count) :
    RingOk pl.take :=
  let discarded := discard_ringOk ok queued
  ⟨discarded.head, discarded.count, discarded.tail⟩

theorem take_contents {pl : PipelineT α} (ok : RingOk pl) (queued : 0 < pl.count) :
    pl.contents = pl.front :: pl.take.contents := by
  have bound : pl.count - 1 + 1 ≤ pl.size := by
    rw [Nat.sub_add_cancel queued]
    exact ok.count
  have cleared : pl.take.contents = pl.discard.contents :=
    Ring.contents_update_removed pl.buf none ok.head bound
  rw [cleared]
  exact discard_contents ok queued

/-- A full ring is not empty. -/
theorem queued_of_full {pl : PipelineT α} (ok : RingOk pl) (full : ¬ pl.count < pl.size) :
    0 < pl.count :=
  Nat.lt_of_lt_of_le (Nat.lt_of_le_of_lt (Nat.zero_le _) ok.head) (Nat.le_of_not_lt full)

variable [DecidableEq τ]

/-- The lock-protected fields change only by the four ring operations. -/
theorem step_ring {s s' : State τ α} {e : Event τ α} (ok : RingOk s.pl)
    (step : Step s e s') : RingOk s'.pl := by
  cases step with
  | putStore t here room signal => exact store_ringOk ok room _
  | getTake t here queued signal => exact take_ringOk ok queued
  | putDrop t here full policy => exact discard_ringOk ok (queued_of_full ok full)
  | closeDrain t here queued => exact discard_ringOk ok (Nat.pos_of_ne_zero queued)
  | _ => exact ok

/-- One step keeps the balance between what went in, what went out and what is
in the ring. -/
theorem step_balance {s s' : State τ α} {e : Event τ α} {trace : List (Event τ α)}
    (ok : RingOk s.pl) (step : Step s e s')
    (balance : pushed trace = popped trace ++ s.pl.contents) :
    pushed (trace ++ [e]) = popped (trace ++ [e]) ++ s'.pl.contents := by
  cases step with
  | putStore t here room signal =>
      simp [pushed, popped, store_contents ok room] at balance ⊢
      rw [balance, List.append_assoc]
  | getTake t here queued signal =>
      rw [take_contents ok queued] at balance
      simpa [pushed, popped] using balance
  | putDrop t here full policy =>
      rw [discard_contents ok (queued_of_full ok full)] at balance
      simpa [pushed, popped] using balance
  | closeDrain t here queued =>
      rw [discard_contents ok (Nat.pos_of_ne_zero queued)] at balance
      simpa [pushed, popped] using balance
  | _ => simpa [pushed, popped] using balance

/-! ## From the ring to the returns -/

/-- A put that has stored its pointer and is about to return true. -/
def storing : Pc α → List (Option α)
  | .putUnlock ptr true => [ptr]
  | _ => []

/-- A get that has taken a pointer and is about to return it. -/
def taking : Pc α → List (Option α)
  | .getUnlock (some ptr) => [ptr]
  | _ => []

theorem storing_wake (pc : Pc α) : storing pc.wake = storing pc := by
  cases pc <;> rfl

theorem taking_wake (pc : Pc α) : taking pc.wake = taking pc := by
  cases pc <;> rfl

theorem storing_quiet (pc : Pc α) (free : pc.holds = false) : storing pc = [] := by
  cases pc <;> first | rfl | cases free

theorem taking_quiet (pc : Pc α) (free : pc.holds = false) : taking pc = [] := by
  cases pc <;> first | rfl | cases free

/-- A step that leaves the own carried list alone leaves the owner's alone. -/
theorem flight_same {f : Pc α → List (Option α)} (blind : ∀ pc, f pc.wake = f pc)
    (quiet : ∀ pc, pc.holds = false → f pc = []) {s s' : State τ α} {e : Event τ α}
    (owner : Owner s) (step : Step s e s')
    (same : f (s'.pc e.actor) = f (s.pc e.actor)) : flight f s' = flight f s := by
  rw [step_flight blind quiet owner step]
  split
  · rename_i held
    cases before : (s.pc e.actor).holds with
    | true => rw [same, flight_of_holds owner before]
    | false =>
        have after : (s'.pc e.actor).holds = true := by simpa [before] using held
        have free : s.lock = none := by
          rcases (step_move owner step).taken after with again | free
          · rw [before] at again
            cases again
          · exact free
        rw [same, quiet _ before, flight, free]
  · rfl

omit [DecidableEq τ] in
theorem entered_carries {pc next : Pc α} (here : pc.entered = some next) :
    storing next = storing pc ∧ taking next = taking pc := by
  cases pc <;> simp_all [Pc.entered] <;> subst here <;> exact ⟨rfl, rfl⟩

omit [DecidableEq τ] in
theorem slept_carries {pc next : Pc α} (here : pc.slept = some next) :
    storing next = storing pc ∧ taking next = taking pc := by
  cases pc <;> simp_all [Pc.slept] <;> subst here <;> exact ⟨rfl, rfl⟩

/-- A step other than a store and the return of a put leaves the own pending
store alone. -/
theorem step_storing {s s' : State τ α} {e : Event τ α} (step : Step s e s')
    (notStored : ∀ t ptr, e ≠ .stored t ptr)
    (notReturned : ∀ t ptr ok, e ≠ .putReturn t ptr ok) :
    storing (s'.pc e.actor) = storing (s.pc e.actor) := by
  cases step with
  | putStore t here => exact absurd rfl (notStored t _)
  | putReturn t here => exact absurd rfl (notReturned t _ _)
  | acquire t here => simpa [Event.actor] using (entered_carries here).1
  | sleep t here => simpa [Event.actor] using (slept_carries here).1
  | spurious t c here => simp [Event.actor, Condition.notify, storing_wake]
  | getTest t here | putTest t here =>
      cases s.closed <;> simp [Event.actor, here, storing]
  | closeDrain t here => rfl
  | putCall t _ here | getCall t here | closeCall t here | getTake t here | getEmpty t here
  | getReturn t here | putFull t here | putDrop t here | closeAgain t here
  | closeFirst t here | closeInput t here | closeOutput t here | closeReturn t here =>
      simp [Event.actor, here, storing]

/-- A step other than a removal by a get and its return leaves the own pending
removal alone. -/
theorem step_taking {s s' : State τ α} {e : Event τ α} (step : Step s e s')
    (notTaken : ∀ t ptr, e ≠ .taken t ptr)
    (notReturned : ∀ t ptr, e ≠ .getReturn t ptr) :
    taking (s'.pc e.actor) = taking (s.pc e.actor) := by
  cases step with
  | getTake t here => exact absurd rfl (notTaken t _)
  | getReturn t here => exact absurd rfl (notReturned t _)
  | acquire t here => simpa [Event.actor] using (entered_carries here).2
  | sleep t here => simpa [Event.actor] using (slept_carries here).2
  | spurious t c here => simp [Event.actor, Condition.notify, taking_wake]
  | getTest t here | putTest t here =>
      cases s.closed <;> simp [Event.actor, here, taking]
  | closeDrain t here => rfl
  | putCall t _ here | getCall t here | closeCall t here | putStore t here | getEmpty t here
  | putReturn t here | putFull t here | putDrop t here | closeAgain t here
  | closeFirst t here | closeInput t here | closeOutput t here | closeReturn t here =>
      simp [Event.actor, here, taking]

theorem step_accepted {s s' : State τ α} {e : Event τ α} {trace : List (Event τ α)}
    (owner : Owner s) (step : Step s e s')
    (before : pushed trace = accepted trace ++ flight storing s) :
    pushed (trace ++ [e]) = accepted (trace ++ [e]) ++ flight storing s' := by
  have still (notStored : ∀ t ptr, e ≠ .stored t ptr)
      (notReturned : ∀ t ptr ok, e ≠ .putReturn t ptr ok) :
      flight storing s' = flight storing s :=
    flight_same storing_wake storing_quiet owner step
      (step_storing step notStored notReturned)
  have after := step_flight storing_wake storing_quiet owner step
  cases e with
  | stored t ptr =>
      cases step with
      | putStore _ here room signal =>
          have held : (s.pc t).holds = true := by rw [here]; rfl
          rw [flight_of_holds owner held, here] at before
          rw [after]
          simp [pushed, accepted, storing, Event.actor, here, Pc.holds] at before ⊢
          exact before
  | putReturn t ptr ok =>
      cases step with
      | putReturn _ here =>
          have held : (s.pc t).holds = true := by rw [here]; rfl
          rw [flight_of_holds owner held, here] at before
          rw [after]
          cases ok <;>
            simp [pushed, accepted, storing, Event.actor, here, Pc.holds] at before ⊢ <;>
            exact before
  | _ =>
      rw [still (by simp) (by simp)]
      simpa [pushed, accepted] using before

theorem step_removed {s s' : State τ α} {e : Event τ α} {trace : List (Event τ α)}
    (owner : Owner s) (step : Step s e s')
    (before : popped trace = removed trace ++ flight taking s) :
    popped (trace ++ [e]) = removed (trace ++ [e]) ++ flight taking s' := by
  have still (notTaken : ∀ t ptr, e ≠ .taken t ptr)
      (notReturned : ∀ t ptr, e ≠ .getReturn t ptr) :
      flight taking s' = flight taking s :=
    flight_same taking_wake taking_quiet owner step
      (step_taking step notTaken notReturned)
  have after := step_flight taking_wake taking_quiet owner step
  cases e with
  | taken t ptr =>
      cases step with
      | getTake _ here queued signal =>
          have held : (s.pc t).holds = true := by rw [here]; rfl
          rw [flight_of_holds owner held, here] at before
          rw [after]
          simp [popped, removed, taking, Event.actor, here, Pc.holds] at before ⊢
          exact before
  | getReturn t ptr =>
      cases step with
      | getReturn _ here =>
          have held : (s.pc t).holds = true := by rw [here]; rfl
          rw [flight_of_holds owner held, here] at before
          rw [after]
          cases ptr <;>
            simp [popped, removed, taking, Event.actor, here, Pc.holds] at before ⊢ <;>
            exact before
  | dropped t ptr =>
      rw [still (by simp) (by simp)]
      cases step with
      | putDrop _ here full policy =>
          have held : (s.pc t).holds = true := by rw [here]; rfl
          rw [flight_of_holds owner held, here] at before ⊢
          simpa [popped, removed, taking] using before
  | drained t ptr =>
      rw [still (by simp) (by simp)]
      cases step with
      | closeDrain _ here queued =>
          have held : (s.pc t).holds = true := by rw [here]; rfl
          rw [flight_of_holds owner held, here] at before ⊢
          simpa [popped, removed, taking] using before
  | _ =>
      rw [still (by simp) (by simp)]
      simpa [popped, removed] using before

/-- Inside a put: whether its pointer has been stored. -/
def putStored : Pc α → Option Bool
  | .putLock _ | .putTest _ | .putCount _ | .putSleep _ | .putAsleep _ | .putAwake _ =>
      some false
  | .putUnlock _ ok => some ok
  | _ => none

omit [DecidableEq τ] in
theorem putStored_wake (pc : Pc α) : putStored pc.wake = putStored pc := by
  cases pc <;> rfl

omit [DecidableEq τ] in
theorem putStored_entered {pc next : Pc α} (here : pc.entered = some next) :
    putStored next = putStored pc := by
  cases pc <;> simp_all [Pc.entered] <;> subst here <;> rfl

omit [DecidableEq τ] in
theorem putStored_slept {pc next : Pc α} (here : pc.slept = some next) :
    putStored next = putStored pc := by
  cases pc <;> simp_all [Pc.slept] <;> subst here <;> rfl

/-- The history knows of every thread inside a put whether it has stored. -/
def StoredKnown (trace : List (Event τ α)) (s : State τ α) : Prop :=
  ∀ t ok, putStored (s.pc t) = some ok → storedSinceCall t trace = ok

@[simp]
theorem storedSinceCall_append (t : τ) (trace : List (Event τ α)) (e : Event τ α) :
    storedSinceCall t (trace ++ [e]) =
      match e with
      | .putCall u _ => if u = t then false else storedSinceCall t trace
      | .stored u _ => if u = t then true else storedSinceCall t trace
      | _ => storedSinceCall t trace := by
  simp only [storedSinceCall, List.foldl_append, List.foldl_cons, List.foldl_nil]

/-- The moves of another thread do not count as stores of `t`. -/
theorem storedSinceCall_other {t : τ} {e : Event τ α} (trace : List (Event τ α))
    (other : t ≠ e.actor) : storedSinceCall t (trace ++ [e]) = storedSinceCall t trace := by
  rw [storedSinceCall_append]
  cases e with
  | putCall u ptr => simp [show u ≠ t from fun same => other same.symm]
  | stored u ptr => simp [show u ≠ t from fun same => other same.symm]
  | _ => rfl

/-- Within a put only the call and the store change whether it has stored. -/
theorem step_putStored {s s' : State τ α} {e : Event τ α} {ok : Bool} (step : Step s e s')
    (notCalled : ∀ t ptr, e ≠ .putCall t ptr) (notStored : ∀ t ptr, e ≠ .stored t ptr)
    (inside : putStored (s'.pc e.actor) = some ok) :
    putStored (s.pc e.actor) = some ok := by
  cases step with
  | putCall t ptr here => exact absurd rfl (notCalled t ptr)
  | putStore t here => exact absurd rfl (notStored t _)
  | acquire t here => simpa [Event.actor, putStored_entered here] using inside
  | sleep t here => simpa [Event.actor, putStored_slept here] using inside
  | spurious t c here =>
      simpa [Event.actor, Condition.notify, putStored_wake] using inside
  | putTest t here =>
      cases closed : s.closed <;>
        simpa [Event.actor, here, closed, putStored] using inside
  | putFull t here | putDrop t here => simpa [Event.actor, here, putStored] using inside
  | getTest t here =>
      cases closed : s.closed <;> simp [Event.actor, closed, putStored] at inside
  | closeDrain t here => exact inside
  | getCall t here | closeCall t here | getTake t here | getEmpty t here | getReturn t here
  | putReturn t here | closeAgain t here | closeFirst t here | closeInput t here
  | closeOutput t here | closeReturn t here =>
      simp [Event.actor, putStored] at inside

theorem step_storedKnown {s s' : State τ α} {e : Event τ α} {trace : List (Event τ α)}
    (owner : Owner s) (step : Step s e s') (known : StoredKnown trace s) :
    StoredKnown (trace ++ [e]) s' := by
  intro u ok inside
  by_cases own : u = e.actor
  · subst own
    cases e with
    | putCall t ptr =>
        cases step with
        | putCall _ _ here => simpa [Event.actor, putStored] using inside
    | stored t ptr =>
        cases step with
        | putStore _ here room signal => simpa [Event.actor, putStored] using inside
    | _ =>
        rw [storedSinceCall_append]
        exact known _ ok (step_putStored step (by simp) (by simp) inside)
  · rw [storedSinceCall_other trace own]
    apply known u ok
    rwa [step_others putStored_wake owner step own] at inside

/-- A thread that has loaded `closed` as false and not used it up yet. -/
def testedOpen : Pc α → Bool
  | .getCount | .getSleep | .putCount _ | .putSleep _ => true
  | _ => false

/-- The close that set the flag has returned: the ring is empty and nobody is
left who could still store. -/
def Drained (trace : List (Event τ α)) (s : State τ α) : Prop :=
  ∀ t, .closeReturn t true ∈ trace →
    s.closed = true ∧ s.pl.count = 0 ∧ ∀ u, testedOpen (s.pc u) = false

omit [DecidableEq τ] in
theorem testedOpen_wake (pc : Pc α) : testedOpen pc.wake = testedOpen pc := by
  cases pc <;> rfl

omit [DecidableEq τ] in
theorem testedOpen_holds {pc : Pc α} (free : pc.holds = false) : testedOpen pc = false := by
  cases pc <;> first | rfl | cases free

/-- The flag is never cleared. -/
theorem step_closed {s s' : State τ α} {e : Event τ α} (step : Step s e s')
    (closed : s.closed = true) : s'.closed = true := by
  cases step with
  | closeFirst t here opened => rfl
  | _ => exact closed

/-- On a closed pipeline no test of the flag comes out open. -/
theorem step_testedOpen {s s' : State τ α} {e : Event τ α} (owner : Owner s)
    (step : Step s e s') (closed : s.closed = true)
    (none_open : ∀ u, testedOpen (s.pc u) = false) (u : τ) :
    testedOpen (s'.pc u) = false := by
  by_cases own : u = e.actor
  · subst own
    cases step with
    | acquire t here =>
        cases hpc : s.pc t <;> rw [hpc] at here <;> cases here <;>
          simp [Event.actor, testedOpen]
    | sleep t here =>
        cases hpc : s.pc t <;> rw [hpc] at here <;> cases here <;>
          simp [Event.actor, testedOpen]
    | spurious t c here =>
        simpa [Event.actor, Condition.notify, testedOpen_wake] using none_open t
    | getTest t here | putTest t here => simp [Event.actor, closed, testedOpen]
    | getEmpty t here | putFull t here =>
        have impossible := none_open t
        rw [here] at impossible
        cases impossible
    | closeDrain t here => exact none_open t
    | putCall t _ here | getCall t here | closeCall t here | getTake t here
    | getReturn t here | putStore t here | putDrop t here | putReturn t here
    | closeAgain t here | closeFirst t here | closeInput t here | closeOutput t here
    | closeReturn t here =>
        simp [Event.actor, testedOpen]
  · rw [step_others testedOpen_wake owner step own]
    exact none_open u

/-- With no open test in hand nothing enters an empty ring. -/
theorem step_count_empty {s s' : State τ α} {e : Event τ α} (step : Step s e s')
    (empty : s.pl.count = 0) (none_open : ∀ u, testedOpen (s.pc u) = false) :
    s'.pl.count = 0 := by
  cases step with
  | putStore t here | getTake t here | putDrop t here =>
      have impossible := none_open t
      rw [here] at impossible
      cases impossible
  | closeDrain t here queued => exact absurd empty queued
  | _ => exact empty

/-- A thread past the exchange of a close has set the flag. -/
def closing : Pc α → Bool
  | .closeInput | .closeOutput | .closeLock | .closeDrain => true
  | _ => false

omit [DecidableEq τ] in
theorem closing_wake (pc : Pc α) : closing pc.wake = closing pc := by
  cases pc <;> rfl

theorem step_closing {s s' : State τ α} {e : Event τ α} (owner : Owner s)
    (step : Step s e s') (flag : ∀ u, closing (s.pc u) = true → s.closed = true)
    (u : τ) (inside : closing (s'.pc u) = true) : s'.closed = true := by
  by_cases own : u = e.actor
  · subst own
    cases step with
    | closeFirst t here opened => rfl
    | acquire t here =>
        cases hpc : s.pc t <;> rw [hpc] at here <;> cases here <;>
          simp [Event.actor, closing] at inside
        exact flag t (by rw [hpc]; rfl)
    | sleep t here =>
        cases hpc : s.pc t <;> rw [hpc] at here <;> cases here <;>
          simp [Event.actor, closing] at inside
    | spurious t c here =>
        exact flag t (by simpa [Event.actor, Condition.notify, closing_wake] using inside)
    | getTest t here | putTest t here =>
        cases closed : s.closed <;> simp [Event.actor, closed, closing] at inside
    | closeInput t here | closeOutput t here | closeDrain t here =>
        exact flag t (by rw [here]; rfl)
    | putCall t _ here | getCall t here | closeCall t here | getTake t here
    | getEmpty t here | getReturn t here | putStore t here | putFull t here | putDrop t here
    | putReturn t here | closeAgain t here | closeReturn t here =>
        simp [Event.actor, closing] at inside
  · apply step_closed step
    apply flag u
    rwa [step_others closing_wake owner step own] at inside

theorem step_drained {s s' : State τ α} {e : Event τ α} {trace : List (Event τ α)}
    (owner : Owner s) (step : Step s e s')
    (flag : ∀ u, closing (s.pc u) = true → s.closed = true) (drained : Drained trace s) :
    Drained (trace ++ [e]) s' := by
  intro t returned
  rcases List.mem_append.mp returned with earlier | now
  · obtain ⟨closed, empty, none_open⟩ := drained t earlier
    exact ⟨step_closed step closed, step_count_empty step empty none_open,
      step_testedOpen owner step closed none_open⟩
  · have same : Event.closeReturn t true = e := List.mem_singleton.mp now
    subst same
    cases step with
    | closeReturn _ here empty =>
        -- The closer still owns the lock, so no other thread has a test in hand.
        have held : (s.pc t).holds = true := by rw [here]; rfl
        refine ⟨flag t (by rw [here]; rfl), empty, ?_⟩
        intro u
        by_cases own : u = t
        · subst own
          simp [testedOpen]
        · have free : (s.pc u).holds = false := by
            cases holding : (s.pc u).holds with
            | false => rfl
            | true =>
                have both := ((owner t).mp held).symm.trans ((owner u).mp holding)
                exact absurd (Option.some.inj both).symm own
          simpa [own] using testedOpen_holds free

/-! ## Whole runs -/

theorem step_shape {s s' : State τ α} {e : Event τ α} (step : Step s e s') :
    s'.pl.policy = s.pl.policy ∧ s'.pl.size = s.pl.size := by
  cases step <;> exact ⟨rfl, rfl⟩

/-- What every run of a pipeline with at least one slot maintains. -/
structure Inv (size : Nat) (policy : Policy) (trace : List (Event τ α))
    (s : State τ α) : Prop where
  owner : Owner s
  shape : s.pl.policy = policy ∧ s.pl.size = size
  ring : RingOk s.pl
  balance : pushed trace = popped trace ++ s.pl.contents
  puts : pushed trace = accepted trace ++ flight storing s
  gets : popped trace = removed trace ++ flight taking s
  stored : StoredKnown trace s
  flag : ∀ u, closing (s.pc u) = true → s.closed = true
  drained : Drained trace s
  kept : policy = .wait → ∀ t ptr, Event.dropped t ptr ∉ trace
  dropped : ∀ t ptr, Event.dropped t ptr ∈ trace → ptr ∈ accepted trace

theorem initial_inv {size : Nat} (policy : Policy) (hsize : 1 ≤ size) :
    Inv size policy [] (initial size policy : State τ α) where
  owner t := by simp [initial, Pc.holds]
  shape := ⟨rfl, rfl⟩
  ring := make_ringOk policy hsize
  balance := rfl
  puts := rfl
  gets := rfl
  stored t ok inside := by simp [initial, putStored] at inside
  flag u inside := by simp [initial, closing] at inside
  drained t returned := by cases returned
  kept _ t ptr member := by cases member
  dropped t ptr member := by cases member

/-- A drop takes out a pointer that a put has had accepted. -/
theorem step_dropped {size : Nat} {policy : Policy} {trace : List (Event τ α)}
    {s s' : State τ α} {t : τ} {ptr : Option α} (inv : Inv size policy trace s)
    (step : Step s (.dropped t ptr) s') : policy ≠ .wait ∧ ptr ∈ accepted trace := by
  cases step with
  | putDrop _ here full notWait =>
      refine ⟨inv.shape.1 ▸ notWait, ?_⟩
      have held : (s.pc t).holds = true := by rw [here]; rfl
      have all : pushed trace = accepted trace := by
        rw [inv.puts, flight_of_holds inv.owner held, here]
        exact List.append_nil _
      rw [← all, inv.balance, discard_contents inv.ring (queued_of_full inv.ring full)]
      simp

omit [DecidableEq τ] in
theorem accepted_mono {trace : List (Event τ α)} {ptr : Option α} (e : Event τ α)
    (member : ptr ∈ accepted trace) : ptr ∈ accepted (trace ++ [e]) := by
  unfold accepted at member ⊢
  rw [List.filterMap_append]
  exact List.mem_append_left _ member

theorem step_inv {size : Nat} {policy : Policy} {trace : List (Event τ α)}
    {s s' : State τ α} {e : Event τ α} (inv : Inv size policy trace s)
    (step : Step s e s') : Inv size policy (trace ++ [e]) s' where
  owner := step_owner inv.owner step
  shape := by rw [(step_shape step).1, (step_shape step).2]; exact inv.shape
  ring := step_ring inv.ring step
  balance := step_balance inv.ring step inv.balance
  puts := step_accepted inv.owner step inv.puts
  gets := step_removed inv.owner step inv.gets
  stored := step_storedKnown inv.owner step inv.stored
  flag := step_closing inv.owner step inv.flag
  drained := step_drained inv.owner step inv.flag inv.drained
  kept wait t ptr member := by
    rcases List.mem_append.mp member with earlier | now
    · exact inv.kept wait t ptr earlier
    · rw [← List.mem_singleton.mp now] at step
      exact (step_dropped inv step).1 wait
  dropped t ptr member := by
    apply accepted_mono
    rcases List.mem_append.mp member with earlier | now
    · exact inv.dropped t ptr earlier
    · rw [← List.mem_singleton.mp now] at step
      exact (step_dropped inv step).2

theorem run_inv {size : Nat} {policy : Policy} (hsize : 1 ≤ size)
    {trace : List (Event τ α)} {s : State τ α}
    (run : Run (system τ α size policy) trace s) : Inv size policy trace s := by
  refine Run.invariant (Inv size policy) ?_ ?_ run
  · rintro s rfl
    exact initial_inv policy hsize
  · intro trace s e s' inv step
    exact step_inv inv step

/-- Whatever the interleaving, when the lock is free the accepted pointers are
the removed ones followed by the ring; the cursors agree; a waiting pipeline
drops nothing; a put that returns false has stored nothing and what puts drop
had been accepted before; and behind a completed close the ring stays empty. -/
theorem pipeline_fifo {size : Nat} {policy : Policy} (hsize : 1 ≤ size)
    {trace : List (Event τ α)} {s : State τ α}
    (run : Run (system τ α size policy) trace s) :
    (s.lock = none → accepted trace = removed trace ++ s.pl.contents) ∧
    s.pl.count ≤ s.pl.size ∧
    s.pl.tail = (s.pl.head + s.pl.count) % s.pl.size ∧
    (policy = .wait → ∀ t ptr, Event.dropped t ptr ∉ trace) ∧
    (∀ t ptr s', Step s (.putReturn t ptr false) s' → storedSinceCall t trace = false) ∧
    (∀ t ptr, Event.dropped t ptr ∈ trace → ptr ∈ accepted trace) ∧
    (∀ t, Event.closeReturn t true ∈ trace → s.pl.count = 0) := by
  have inv := run_inv hsize run
  refine ⟨?_, inv.ring.count, inv.ring.tail, inv.kept, ?_, inv.dropped, ?_⟩
  · intro free
    have puts := inv.puts
    have gets := inv.gets
    simp only [flight, free, List.append_nil] at puts gets
    rw [← puts, ← gets]
    exact inv.balance
  · intro t ptr s' step
    cases step with
    | putReturn _ here => exact inv.stored t false (by rw [here]; rfl)
  · intro t returned
    exact (inv.drained t returned).2.1

/-- One thread fills a dropping pipeline of one slot and puts once more. -/
theorem overwrite_run :
    ∃ s, Run (system Unit Nat 1 .drop)
        [.putCall () (some 1), .silent (), .silent (), .stored () (some 1),
          .putReturn () (some 1) true,
          .putCall () (some 2), .silent (), .silent (), .dropped () (some 1), .silent (),
          .stored () (some 2), .putReturn () (some 2) true] s ∧
      s.lock = none ∧ s.pl.contents = [some 2] := by
  have start : Run (system Unit Nat 1 .drop) [] (initial 1 .drop) := .start rfl
  have called := start.next (Step.putCall () (some 1) rfl)
  have tested := (called.next (.acquire () rfl rfl)).next (.putTest () rfl)
  have stored := tested.next (.putStore () rfl (by decide) ⟨none, .nobody fun _ => rfl⟩)
  have again := (stored.next (.putReturn () rfl)).next (.putCall () (some 2) rfl)
  have full := (again.next (.acquire () rfl rfl)).next (.putTest () rfl)
  have dropped := full.next (.putDrop () rfl (by decide) (by decide))
  have room := dropped.next (.putTest () rfl)
  have replaced := room.next (.putStore () rfl (by decide) ⟨none, .nobody fun _ => rfl⟩)
  exact ⟨_, replaced.next (.putReturn () rfl), rfl, rfl⟩

theorem pipeline_fifo_overwrite :
    ∃ trace s, Run (system Unit Nat 1 .drop) trace s ∧
      accepted trace = [some 1, some 2] ∧ removed trace = [some 1] ∧
      accepted trace = removed trace ++ s.pl.contents := by
  obtain ⟨s, run, free, _⟩ := overwrite_run
  exact ⟨_, s, run, rfl, rfl, (pipeline_fifo (by decide) run).1 free⟩

end CprFormal.Pipeline.Fifo
