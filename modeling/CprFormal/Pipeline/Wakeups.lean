import Mathlib.Data.Fin.VecNotation
import Mathlib.Data.Fintype.Basic
import Mathlib.Tactic.FinCases
import CprFormal.Library.Population
import CprFormal.Pipeline.Close

/-!
# Wake-ups of an open pipeline

A put signals only when the ring was empty, and a get only when it was full.  When
two consumers sleep and two puts follow each other, the second one signals nobody:
an object is queued that no notified consumer will take, and the second consumer
sleeps on.  When no put or get without a signal leaves a sleeper behind that it could
have notified, the objects never outnumber the notified consumers while one sleeps
un-notified.  A ring of one slot is of this kind: it is empty whenever an object is
stored and full whenever one is taken.
-/

namespace CprFormal.Pipeline.Wakeups

open Function (update)
open CprFormal.Library.Monitor CprFormal.Library.Population CprFormal.Library.Transition
open CprFormal.Pipeline.Model CprFormal.Pipeline.Lock CprFormal.Pipeline.Fifo
open CprFormal.Pipeline.Close

variable {τ α : Type}

/-- Notified on `c` and not yet resumed. -/
def woken : Cond → Pc α → Bool
  | .output, .getAwake => true
  | .input, .putAwake _ => true
  | _, _ => false

/-- What the sleepers on `c` wait for: queued objects or free slots. -/
def supply : Cond → PipelineT α → Nat
  | .output, pl => pl.count
  | .input, pl => pl.size - pl.count

/-- Nobody is asleep un-notified on `c`. -/
def Nobody (c : Cond) (s : State τ α) : Prop := ∀ u, c.condition.asleep (s.pc u) = false

/-- A put or a get that does not signal passes over no sleeper. -/
def Enough (s : State τ α) : Event τ α → Prop
  | .stored _ _ => s.pl.count ≠ 0 → Nobody .output s
  | .taken _ _ => s.pl.count ≠ s.pl.size → Nobody .input s
  | _ => True

/-- Notified on `c`, or the owner of the lock before its test of the ring. -/
def coming : Cond → Pc α → Bool
  | .output, .getAwake | .output, .getTest | .output, .getCount => true
  | .input, .putAwake _ | .input, .putTest _ | .input, .putCount _ => true
  | _, _ => false

/-- About to fall asleep on `c`. -/
def leaving : Cond → Pc α → Bool
  | .output, .getSleep => true
  | .input, .putSleep _ => true
  | _, _ => false

theorem leaving_wake (c : Cond) (pc : Pc α) : leaving c pc.wake = leaving c pc := by
  cases c <;> cases pc <;> rfl

theorem notified_coming (c : Cond) : Notified (c.condition : Condition (Pc α)) (coming c) where
  asleep pc sleeps := by cases c <;> cases pc <;> first | rfl | cases sleeps
  woken pc sleeps := by cases c <;> cases pc <;> first | rfl | cases sleeps

/-- A wake-up takes nobody off the way. -/
theorem coming_wake (c d : Cond) (pc : Pc α) (_ : d.condition.asleep pc = true) :
    coming c pc = true → coming c (d.condition.wake pc) = true := by
  cases c <;> cases d <;> cases pc <;> first | exact id | exact fun _ => rfl

/-- The owner of the free lock aside, only notified threads are on the way. -/
theorem coming_free (c : Cond) {pc : Pc α} (free : pc.holds = false) :
    coming c pc = woken c pc := by
  cases c <;> cases pc <;> first | rfl | cases free

variable [DecidableEq τ] [Fintype τ]

/-- While somebody sleeps un-notified on `c`, the threads on the way cover the
supply. -/
def Supplied (c : Cond) (s : State τ α) : Prop :=
  ∀ u, c.condition.asleep (s.pc u) = true → supply c s.pl ≤ population (coming c) s.pc

omit [DecidableEq τ] [Fintype τ] in
/-- Nobody falls asleep by a wake-up. -/
theorem wakes_asleep {c d : Cond} {pc pc' : τ → Pc α} (wakes : d.condition.Wakes pc pc') {u : τ}
    (sleeps : c.condition.asleep (pc' u) = true) : c.condition.asleep (pc u) = true := by
  rcases kept_of_wakes wakes u with same | woken
  · rwa [same] at sleeps
  · rw [woken, asleep_wake] at sleeps
    cases sleeps

omit [Fintype τ] in
/-- A sleeper behind a step of `t` that does not fall asleep slept in front of it. -/
theorem asleep_before {c d : Cond} {pc pc' : τ → Pc α} (wakes : d.condition.Wakes pc pc')
    {t u : τ} {next : Pc α} (awake : c.condition.asleep next = false)
    (sleeps : c.condition.asleep (update pc' t next u) = true) :
    c.condition.asleep (pc u) = true := by
  have other : u ≠ t := by
    rintro rfl
    rw [Function.update_self, awake] at sleeps
    cases sleeps
  rw [Function.update_of_ne other] at sleeps
  exact wakes_asleep wakes sleeps

/-- A step that leaves the ring alone: its thread stays on the way, or there is no
supply, and it only falls asleep when there is none. -/
theorem supplied_move {c : Cond} {s : State τ α} (supplied : Supplied c s) {t : τ}
    {next : Pc α} (closed : Bool) (lock : Option τ)
    (keeps : coming c (s.pc t) = true → coming c next = true ∨ supply c s.pl = 0)
    (sleeps : c.condition.asleep next = true → supply c s.pl = 0) :
    Supplied c { s with closed := closed, lock := lock, pc := update s.pc t next } := by
  intro u asleep
  change supply c s.pl ≤ population (coming c) (update s.pc t next)
  by_cases none_left : supply c s.pl = 0
  · rw [none_left]
    exact Nat.zero_le _
  · have awake : c.condition.asleep next = false := by
      cases falls : c.condition.asleep next with
      | false => rfl
      | true => exact absurd (sleeps falls) none_left
    have before := supplied u (asleep_before (d := c) (.refl _ _) awake asleep)
    have moved := population_update (coming c) s.pc t next
    have stays : (coming c (s.pc t)).toNat ≤ (coming c next).toNat := by
      cases way : coming c (s.pc t) with
      | false => exact Nat.zero_le _
      | true =>
          rcases keeps way with still | nothing
          · rw [still]
          · exact absurd nothing none_left
    omega

/-- A notification takes nobody off the way. -/
theorem supplied_notify {c d : Cond} {s : State τ α} (supplied : Supplied c s) {t : τ}
    (sleeps : d.condition.asleep (s.pc t) = true) :
    Supplied c { s with pc := d.condition.notify s.pc t } := by
  intro u asleep
  have wakes := d.condition.wakes_notify s.pc sleeps
  have more := population_wakes_le (coming_wake c d) wakes
  exact Nat.le_trans (supplied u (wakes_asleep wakes asleep)) more

/-- A step of the lock owner that changes the ring. -/
theorem supplied_ring {c d : Cond} {s : State τ α} {pc' : τ → Pc α}
    (wakes : d.condition.Wakes s.pc pc') {t : τ} (held : (s.pc t).holds = true) {next : Pc α}
    (awake : c.condition.asleep next = false) {pl : PipelineT α}
    (enough : ∀ u, c.condition.asleep (s.pc u) = true →
      supply c pl + (coming c (s.pc t)).toNat ≤
        population (coming c) pc' + (coming c next).toNat)
    (closed : Bool) (lock : Option τ) : Supplied c ⟨pl, closed, lock, update pc' t next⟩ := by
  intro u asleep
  have before := enough u (asleep_before wakes awake asleep)
  have moved := population_update (coming c) pc' t next
  have same : pc' t = s.pc t := by
    rcases wakes t with same | ⟨slept, _⟩
    · exact same
    · rw [asleep_not_holds slept] at held
      cases held
  rw [same] at moved
  change supply c pl ≤ population (coming c) (update pc' t next)
  omega

/-- A signal on `c` notifies one more when somebody sleeps on it. -/
theorem signal_coming {c : Cond} {test : Bool} {pc pc' : τ → Pc α}
    (signal : SignalIf test c pc pc') (sent : test = true) {u : τ}
    (sleeps : c.condition.asleep (pc u) = true) :
    population (coming c) pc' = population (coming c) pc + 1 := by
  unfold SignalIf at signal
  rw [if_pos sent] at signal
  exact population_signal (notified_coming c) signal sleeps

/-- Taking an object out: a waiting consumer has one less to take; a free slot more is
signalled on a full ring, and on another one nobody waits for it. -/
theorem supplied_take {c : Cond} {s : State τ α} (supplied : Supplied c s) {t : τ}
    {pc' : τ → Pc α} (here : s.pc t = .getCount) (some_queued : 0 < s.pl.count)
    (signal : SignalIf (s.pl.count == s.pl.size) .input s.pc pc')
    (enough : s.pl.count ≠ s.pl.size → Nobody .input s) :
    Supplied c { s with
      pl := s.pl.take, pc := update pc' t (.getUnlock (some s.pl.front)) } := by
  have wakes := Lock.SignalIf.wakes signal
  have more := population_wakes_le (coming_wake c .input) wakes
  refine supplied_ring wakes (by rw [here]; rfl) (by cases c <;> rfl)
    (fun u sleeps => ?_) _ _
  have before := supplied u sleeps
  rw [here]
  cases c with
  | output =>
      change s.pl.count - 1 + 1 ≤ population (coming .output) pc'
      rw [Nat.sub_add_cancel some_queued]
      exact Nat.le_trans before more
  | input =>
      change s.pl.size - (s.pl.count - 1) ≤ population (coming .input) pc'
      by_cases full : s.pl.count = s.pl.size
      · have notified := signal_coming signal (beq_iff_eq.mpr full) sleeps
        omega
      · rw [enough full u] at sleeps
        cases sleeps

/-- Storing an object, likewise. -/
theorem supplied_store {c : Cond} {s : State τ α} (supplied : Supplied c s) {t : τ}
    {ptr : Option α} {pc' : τ → Pc α} (here : s.pc t = .putCount ptr)
    (room : s.pl.count < s.pl.size)
    (signal : SignalIf (s.pl.count == 0) .output s.pc pc')
    (enough : s.pl.count ≠ 0 → Nobody .output s) :
    Supplied c { s with pl := s.pl.store ptr, pc := update pc' t (.putUnlock ptr true) } := by
  have wakes := Lock.SignalIf.wakes signal
  have more := population_wakes_le (coming_wake c .output) wakes
  refine supplied_ring wakes (by rw [here]; rfl) (by cases c <;> rfl)
    (fun u sleeps => ?_) _ _
  have before := supplied u sleeps
  rw [here]
  cases c with
  | output =>
      change s.pl.count + 1 ≤ population (coming .output) pc'
      by_cases none_queued : s.pl.count = 0
      · have notified := signal_coming signal (beq_iff_eq.mpr none_queued) sleeps
        omega
      · rw [enough none_queued u] at sleeps
        cases sleeps
  | input =>
      have before : s.pl.size - s.pl.count ≤ population (coming .input) s.pc := before
      change s.pl.size - (s.pl.count + 1) + 1 ≤ population (coming .input) pc'
      omega

/-- In `putSleep` or asleep behind it; only a waiting put gets there. -/
def queues : Pc α → Bool
  | .putSleep _ | .putAsleep _ => true
  | _ => false

theorem queues_wake (pc : Pc α) (queued : queues pc.wake = true) : queues pc = true := by
  cases pc <;> first | rfl | cases queued

omit [Fintype τ] in
theorem step_queues {s s' : State τ α} {e : Event τ α} (owner : Owner s) (step : Step s e s')
    (waiting : ∀ u, queues (s.pc u) = true → s.pl.policy = .wait) (u : τ)
    (queued : queues (s'.pc u) = true) : s'.pl.policy = .wait := by
  rw [(step_shape step).1]
  by_cases own : u = e.actor
  · subst own
    cases step with
    | putFull t here full policy => exact policy
    | acquire t here =>
        cases hpc : s.pc t <;> rw [hpc] at here <;> cases here <;>
          simp [Event.actor, queues] at queued
    | sleep t here =>
        refine waiting t ?_
        cases hpc : s.pc t <;> rw [hpc] at here <;> cases here
        · simp [Event.actor, queues] at queued
        · rfl
    | spurious t c here =>
        refine waiting t (queues_wake _ ?_)
        simpa [Event.actor, Condition.notify] using queued
    | getTest t here | putTest t here =>
        cases closed : s.closed <;> simp [Event.actor, closed, queues] at queued
    | closeDrain t here => exact waiting t queued
    | putCall t _ here | getCall t here | closeCall t here | getTake t here
    | getEmpty t here | getReturn t here | putStore t here | putDrop t here
    | putReturn t here | closeAgain t here | closeFirst t here | closeInput t here
    | closeOutput t here | closeReturn t here =>
        simp [Event.actor, queues] at queued
  · refine waiting u ?_
    rcases (step_move owner step).others u own with same | woken
    · rwa [same] at queued
    · rw [woken] at queued
      exact queues_wake _ queued

theorem leaving_holds (c : Cond) {pc : Pc α} (leaves : leaving c pc = true) :
    pc.holds = true := by
  cases c <;> cases pc <;> first | rfl | cases leaves

omit [Fintype τ] in
/-- Whoever is about to fall asleep has found no supply, and there is none yet. -/
theorem step_leaving {s s' : State τ α} {e : Event τ α} (owner : Owner s) (step : Step s e s')
    (c : Cond) (empty : ∀ u, leaving c (s.pc u) = true → supply c s.pl = 0) (u : τ)
    (leaves : leaving c (s'.pc u) = true) : supply c s'.pl = 0 := by
  by_cases own : u = e.actor
  · subst own
    cases step with
    | getEmpty t here none_queued =>
        cases c
        · simp [Event.actor, leaving] at leaves
        · exact none_queued
    | putFull t here full policy =>
        cases c
        · exact Nat.sub_eq_zero_of_le (Nat.le_of_not_lt full)
        · simp [Event.actor, leaving] at leaves
    | acquire t here | sleep t here =>
        cases hpc : s.pc t <;> rw [hpc] at here <;> cases here <;> cases c <;>
          simp [Event.actor, leaving] at leaves
    | spurious t d here =>
        refine empty t ?_
        simpa [Event.actor, Condition.notify, leaving_wake] using leaves
    | getTest t here | putTest t here =>
        cases closed : s.closed <;> cases c <;> simp [Event.actor, closed, leaving] at leaves
    | closeDrain t here =>
        have leaves : leaving c (s.pc t) = true := leaves
        rw [here] at leaves
        cases c <;> cases leaves
    | putCall t _ here | getCall t here | closeCall t here | getTake t here
    | getReturn t here | putStore t here | putDrop t here | putReturn t here
    | closeAgain t here | closeFirst t here | closeInput t here | closeOutput t here
    | closeReturn t here =>
        cases c <;> simp [Event.actor, leaving] at leaves
  · rw [step_others (leaving_wake c) owner step own] at leaves
    -- `u` owns the lock, so the ring stays as it is.
    have free : (s.pc e.actor).holds = false := by
      cases held : (s.pc e.actor).holds with
      | false => rfl
      | true =>
          have both := ((owner u).mp (leaving_holds c leaves)).symm.trans ((owner _).mp held)
          exact absurd (Option.some.inj both) own
    rw [step_pl step free]
    exact empty u leaves

theorem entered_coming {c : Cond} {pc next : Pc α} (here : pc.entered = some next) :
    (coming c pc = true → coming c next = true) ∧ c.condition.asleep next = false := by
  cases pc <;> cases here <;> cases c <;> exact ⟨fun way => by cases way <;> rfl, rfl⟩

theorem slept_coming {c : Cond} {pc next : Pc α} (here : pc.slept = some next) :
    coming c pc = false ∧ (c.condition.asleep next = true → leaving c pc = true) := by
  cases pc <;> cases here <;> cases c <;> exact ⟨rfl, fun falls => by cases falls <;> rfl⟩

theorem step_supplied {s s' : State τ α} {e : Event τ α} (step : Step s e s')
    (enough : Enough s e) (opened : s'.closed = false)
    (flag : ∀ u, closing (s.pc u) = true → s.closed = true)
    (waiting : ∀ u, queues (s.pc u) = true → s.pl.policy = .wait) (c : Cond)
    (empty : ∀ u, leaving c (s.pc u) = true → supply c s.pl = 0) (supplied : Supplied c s) :
    Supplied c s' := by
  have notClosing {t : τ} (closes : closing (s.pc t) = true) (same : s'.closed = s.closed) :
      False := by
    rw [same, flag t closes] at opened
    cases opened
  cases step with
  | putCall t _ here | getCall t here | closeCall t here | getReturn t here | putReturn t here =>
      exact supplied_move supplied _ _ (fun way => by rw [here] at way; cases c <;> cases way)
        (fun falls => by cases c <;> cases falls)
  | acquire t here free =>
      obtain ⟨keeps, awake⟩ := entered_coming (c := c) here
      refine supplied_move supplied _ _ (fun way => .inl (keeps way)) (fun falls => ?_)
      rw [awake] at falls
      cases falls
  | sleep t here =>
      obtain ⟨off, leaves⟩ := slept_coming (c := c) here
      refine supplied_move supplied _ _ (fun way => ?_) (fun falls => empty t (leaves falls))
      rw [off] at way
      cases way
  | spurious t d here => exact supplied_notify supplied here
  | getTest t here | putTest t here =>
      have opened : s.closed = false := opened
      rw [opened]
      exact supplied_move supplied _ _
        (fun way => by rw [here] at way; cases c <;> cases way; exact .inl rfl)
        (fun falls => by cases c <;> cases falls)
  | getEmpty t here none_queued =>
      exact supplied_move supplied _ _
        (fun way => by rw [here] at way; cases c <;> cases way; exact .inr none_queued)
        (fun falls => by cases c <;> cases falls)
  | putFull t here full policy =>
      exact supplied_move supplied _ _
        (fun way => by
          rw [here] at way
          cases c <;> cases way
          exact .inr (Nat.sub_eq_zero_of_le (Nat.le_of_not_lt full)))
        (fun falls => by cases c <;> cases falls)
  | getTake t here some_queued signal =>
      exact supplied_take supplied here some_queued signal enough
  | putStore t here room signal => exact supplied_store supplied here room signal enough
  | putDrop t here full policy =>
      refine supplied_ring (d := c) (.refl _ _) (by rw [here]; rfl) (by cases c <;> rfl)
        (fun u sleeps => ?_) _ _
      have before := supplied u sleeps
      cases c with
      | output =>
          rw [here]
          exact Nat.le_trans (Nat.sub_le _ _) before
      | input =>
          have queued : queues (s.pc u) = true := by
            cases hpc : s.pc u <;> rw [hpc] at sleeps <;> first | rfl | cases sleeps
          exact absurd (waiting u queued) policy
  | closeAgain t here already =>
      have opened : s.closed = false := opened
      rw [already] at opened
      cases opened
  | closeFirst t here => cases opened
  | closeInput t here | closeOutput t here | closeDrain t here | closeReturn t here =>
      exact (notClosing (by rw [here]; rfl) rfl).elim

/-! ## Whole runs -/

/-- What a run maintains whose puts and gets pass over no sleeper. -/
structure Inv (s : State τ α) : Prop where
  owner : Owner s
  flag : ∀ u, closing (s.pc u) = true → s.closed = true
  waiting : ∀ u, queues (s.pc u) = true → s.pl.policy = .wait
  empty : ∀ c u, leaving c (s.pc u) = true → supply c s.pl = 0
  supplied : s.closed = false → ∀ c, Supplied c s

theorem step_inv {s s' : State τ α} {e : Event τ α} (inv : Inv s) (step : Step s e s')
    (enough : Enough s e) : Inv s' where
  owner := step_owner inv.owner step
  flag := step_closing inv.owner step inv.flag
  waiting := step_queues inv.owner step inv.waiting
  empty c := step_leaving inv.owner step c (inv.empty c)
  supplied opened c := by
    have before : s.closed = false := by
      cases closed : s.closed with
      | false => rfl
      | true =>
          rw [step_closed step closed] at opened
          cases opened
    exact step_supplied step enough opened inv.flag inv.waiting c (inv.empty c)
      (inv.supplied before c)

theorem run_inv {size : Nat} {policy : Policy} {trace : List (Event τ α)} {s : State τ α}
    (run : Run ((system τ α size policy).restrict Enough) trace s) : Inv s := by
  refine Run.invariant (fun _ s => Inv s) ?_ ?_ run
  · rintro s rfl
    refine ⟨?_, ?_, ?_, ?_, ?_⟩
    · intro t
      simp [initial, Pc.holds]
    · intro u inside
      simp [initial, closing] at inside
    · intro u queued
      simp [initial, queues] at queued
    · intro c u leaves
      cases c <;> simp [initial, leaving] at leaves
    · intro _ c u sleeps
      cases c <;> cases sleeps
  · rintro _ s e s' inv ⟨step, enough⟩
    exact step_inv inv step enough

/-- In a run whose puts and gets pass over no sleeper, whenever the lock is free on an
open pipeline: while a consumer sleeps un-notified the queued objects do not
outnumber the notified consumers, and while a producer does the free slots do not
outnumber the notified producers. -/
theorem pipeline_wakeups {size : Nat} {policy : Policy} {trace : List (Event τ α)}
    {s : State τ α} (run : Run ((system τ α size policy).restrict Enough) trace s)
    (opened : s.closed = false) (free : s.lock = none) :
    (∀ t, s.pc t = .getAsleep → s.pl.count ≤ population (woken .output) s.pc) ∧
    (∀ t ptr, s.pc t = .putAsleep ptr →
      s.pl.size - s.pl.count ≤ population (woken .input) s.pc) := by
  have inv := run_inv run
  have way (c : Cond) : population (coming c) s.pc = population (woken c) s.pc := by
    refine Finset.sum_congr rfl fun t _ => ?_
    have outside : (s.pc t).holds = false := by
      cases held : (s.pc t).holds with
      | false => rfl
      | true =>
          have locked := (inv.owner t).mp held
          rw [free] at locked
          cases locked
    rw [coming_free c outside]
  constructor
  · intro t sleeps
    rw [← way]
    exact inv.supplied opened .output t (by rw [sleeps]; rfl)
  · intro t ptr sleeps
    rw [← way]
    exact inv.supplied opened .input t (by rw [sleeps]; rfl)

omit [Fintype τ] in
/-- With one slot whatever is stored or taken is signalled, so every run is of this kind. -/
theorem run_one_slot {policy : Policy} {trace : List (Event τ α)} {s : State τ α}
    (run : Run (system τ α 1 policy) trace s) :
    Run ((system τ α 1 policy).restrict Enough) trace s := by
  induction run with
  | start initial => exact .start initial
  | @next trace s s' e before step ih =>
      have inv := Fifo.run_inv (Nat.le_refl 1) before
      have shape : s.pl.size = 1 := inv.shape.2
      have count := inv.ring.count
      refine ih.next ⟨step, ?_⟩
      cases step with
      | getTake t here some_queued signal => exact fun notFull => absurd notFull (by omega)
      | putStore t here room signal => exact fun queued => absurd queued (by omega)
      | putCall | getCall | closeCall | acquire | sleep | spurious | getTest | getEmpty
      | getReturn | putTest | putFull | putDrop | putReturn | closeAgain | closeFirst
      | closeInput | closeOutput | closeDrain | closeReturn => trivial

/-- Two consumers fall asleep and a put notifies one of them. -/
theorem one_notified :
    ∃ trace : List (Event (Fin 3) Nat), Run ((system (Fin 3) Nat 2 .wait).restrict Enough) trace
      ⟨(PipelineT.make 2 .wait).store (some 7), false, none, ![.getAwake, .getAsleep, .idle]⟩ := by
  have start : Run ((system (Fin 3) Nat 2 .wait).restrict Enough) [] (initial 2 .wait) :=
    .start rfl
  have first := ((start.next ⟨.getCall 0 rfl, trivial⟩).next
    ⟨.acquire 0 rfl rfl, trivial⟩).next ⟨.getTest 0 rfl, trivial⟩
  have asleep := (first.next ⟨.getEmpty 0 rfl rfl, trivial⟩).next ⟨.sleep 0 rfl, trivial⟩
  have second := ((asleep.next ⟨.getCall 1 rfl, trivial⟩).next
    ⟨.acquire 1 rfl rfl, trivial⟩).next ⟨.getTest 1 rfl, trivial⟩
  have both := (second.next ⟨.getEmpty 1 rfl rfl, trivial⟩).next ⟨.sleep 1 rfl, trivial⟩
  have called := ((both.next ⟨.putCall 2 (some 7) rfl, trivial⟩).next
    ⟨.acquire 2 rfl rfl, trivial⟩).next ⟨.putTest 2 rfl, trivial⟩
  have stored := called.next ⟨.putStore 2 rfl (by decide) ⟨some 0, .one 0 rfl⟩,
    fun queued => absurd rfl queued⟩
  have returned := stored.next ⟨.putReturn 2 rfl, trivial⟩
  refine ⟨_, cast (congrArg _ ?_) returned⟩
  refine congrArg (State.mk _ _ _) (funext fun t => ?_)
  fin_cases t <;> rfl

/-- The object goes to the notified consumer while the other one sleeps on. -/
theorem pipeline_wakeups_one :
    ∃ (trace : List (Event (Fin 3) Nat)) (s : State (Fin 3) Nat),
      Run ((system (Fin 3) Nat 2 .wait).restrict Enough) trace s ∧
      s.pc 1 = .getAsleep ∧ s.pl.count = 1 ∧ s.pl.count ≤ population (woken .output) s.pc := by
  obtain ⟨trace, run⟩ := one_notified
  exact ⟨trace, _, run, rfl, rfl, (pipeline_wakeups run rfl rfl).1 1 rfl⟩

/-- A second put follows before the notified consumer runs and signals nobody: two
objects are queued for one notified consumer, and the other one sleeps on. -/
theorem put_loses_wakeup :
    ¬ ∀ (trace : List (Event (Fin 3) Nat)) (s : State (Fin 3) Nat),
      Run (system (Fin 3) Nat 2 .wait) trace s → s.closed = false → s.lock = none →
      (∀ t, s.pc t = .getAsleep → s.pl.count ≤ population (woken .output) s.pc) ∧
      (∀ t ptr, s.pc t = .putAsleep ptr →
        s.pl.size - s.pl.count ≤ population (woken .input) s.pc) := by
  intro claimed
  obtain ⟨trace, run⟩ := one_notified
  have called := ((run.relax.next (.putCall 2 (some 8) rfl)).next
    (.acquire 2 rfl rfl)).next (.putTest 2 rfl)
  have stored := called.next (.putStore 2 rfl (by decide) rfl)
  have returned := stored.next (.putReturn 2 rfl)
  have enough : 2 ≤ 1 := (claimed _ _ returned rfl rfl).1 1 rfl
  omega

end CprFormal.Pipeline.Wakeups
