import Mathlib.Data.Fintype.Basic
import CprFormal.Library.Population
import CprFormal.Library.Transition

/-!
# The semaphore of `thread.c`

The critical sections of `cpr_semaphore_acquire` and `cpr_semaphore_release` are
one step each; that of an acquire ends where the thread unlocks or enters
`cnd_wait`.  Every release signals while somebody waits.  A thread only falls
asleep when no slot is free, so the notified threads always outnumber the free
slots as long as somebody sleeps.

The counters of the code are `unsigned` and natural numbers here.  Those that change
count threads, so that none wraps as long as there are fewer than 2^32 threads.
-/

namespace CprFormal.Thread.Semaphore

open Function (update)
open CprFormal.Library.Monitor CprFormal.Library.Population CprFormal.Library.Transition

/-- The counters of `cpr_semaphore_t`. -/
structure SemaphoreT where
  count : Nat
  waits : Nat
  used : Nat
  deriving DecidableEq, Repr

/-- Where a thread stands between two critical sections.  `awake` has been notified
and must retake the mutex and test its loop condition again. -/
inductive Pc where
  | idle
  | asleep
  | awake
  | holding
  deriving DecidableEq, Repr

namespace Pc

def sleeps : Pc → Bool
  | asleep => true
  | _ => false

def wake : Pc → Pc
  | asleep => awake
  | pc => pc

/-- Notified in `cnd_wait` and not yet resumed. -/
def woken : Pc → Bool
  | awake => true
  | _ => false

/-- Inside `cnd_wait`, notified or not. -/
def waits : Pc → Bool
  | asleep | awake => true
  | _ => false

def holds : Pc → Bool
  | holding => true
  | _ => false

end Pc

/-- The condition variable of `cpr_semaphore_t`. -/
def cond : Condition Pc := ⟨Pc.sleeps, Pc.wake⟩

/-- `cpr_semaphore_init` -/
def semaphoreInit (limit : Nat) : SemaphoreT := ⟨limit, 0, 0⟩

/-- The loop of `cpr_semaphore_acquire` by the owner of the mutex. -/
def acquireLoop (sem : SemaphoreT) : SemaphoreT × Pc :=
  if sem.used ≥ sem.count then ({ sem with waits := sem.waits + 1 }, .asleep)
  else ({ sem with used := sem.used + 1 }, .holding)

/-- `--sem->waits` when `cnd_wait` has returned. -/
def SemaphoreT.back (sem : SemaphoreT) : SemaphoreT := { sem with waits := sem.waits - 1 }

/-- `cpr_semaphore_release` before its signal. -/
def release (sem : SemaphoreT) : SemaphoreT :=
  if sem.used ≠ 0 then { sem with used := sem.used - 1 } else sem

inductive Event (τ : Type) where
  | acquire (t : τ)
  | resume (t : τ)
  | release (t : τ)
  | spurious (t : τ)

structure State (τ : Type) where
  sem : SemaphoreT
  pc : τ → Pc

variable {τ : Type} [DecidableEq τ]

inductive Step : State τ → Event τ → State τ → Prop where
  | acquire {s : State τ} (t : τ) (here : s.pc t = .idle) :
      Step s (.acquire t) ⟨(acquireLoop s.sem).1, update s.pc t (acquireLoop s.sem).2⟩
  | resume {s : State τ} (t : τ) (here : s.pc t = .awake) :
      Step s (.resume t) ⟨(acquireLoop s.sem.back).1, update s.pc t (acquireLoop s.sem.back).2⟩
  | release {s : State τ} (t : τ) {pc' : τ → Pc} (here : s.pc t = .holding)
      (signal : cond.SignalIf (decide ((release s.sem).waits ≠ 0)) s.pc pc') :
      Step s (.release t) ⟨release s.sem, update pc' t .idle⟩
  | spurious {s : State τ} (t : τ) (here : cond.asleep (s.pc t) = true) :
      Step s (.spurious t) ⟨s.sem, cond.notify s.pc t⟩

/-- All threads of type `τ` working on one semaphore. -/
def system (τ : Type) [DecidableEq τ] (limit : Nat) : System (State τ) (Event τ) where
  init s := s = ⟨semaphoreInit limit, fun _ => .idle⟩
  step := Step

/-! ## The counters count the threads -/

theorem holds_wake (pc : Pc) (_ : cond.asleep pc = true) : (cond.wake pc).holds = pc.holds := by
  cases pc <;> rfl

theorem waits_wake (pc : Pc) (_ : cond.asleep pc = true) : (cond.wake pc).waits = pc.waits := by
  cases pc <;> rfl

theorem notified_woken : Notified cond Pc.woken where
  asleep x here := by cases x <;> first | rfl | cases here
  woken x here := by cases x <;> first | rfl | cases here

variable [Fintype τ]

/-- What every run maintains. -/
structure Inv (limit : Nat) (s : State τ) : Prop where
  count : s.sem.count = limit
  bound : s.sem.used ≤ s.sem.count
  used : s.sem.used = population Pc.holds s.pc
  waits : s.sem.waits = population Pc.waits s.pc
  woken : ∀ t, s.pc t = .asleep → s.sem.count ≤ s.sem.used + population Pc.woken s.pc

omit [DecidableEq τ] in
/-- With fewer threads than an `unsigned` can count no counter wraps. -/
theorem Inv.unwrapped {limit : Nat} {s : State τ} (inv : Inv limit s)
    (few : Fintype.card τ < 2 ^ 32) : s.sem.used < 2 ^ 32 ∧ s.sem.waits < 2 ^ 32 := by
  rw [inv.used, inv.waits]
  exact ⟨Nat.lt_of_le_of_lt (population_le_card _ _) few,
    Nat.lt_of_le_of_lt (population_le_card _ _) few⟩

omit [Fintype τ] in
/-- A thread asleep behind a critical section of another was asleep in front of it. -/
theorem asleep_before {pc pc' : τ → Pc} (wakes : cond.Wakes pc pc') {t u : τ} {next : Pc}
    (awake : next ≠ .asleep) (sleeps : update pc' t next u = .asleep) : pc u = .asleep := by
  have other : u ≠ t := by
    rintro rfl
    rw [Function.update_self] at sleeps
    exact awake sleeps
  rw [Function.update_of_ne other] at sleeps
  rcases wakes u with same | ⟨_, woken⟩
  · rw [← same, sleeps]
  · rw [woken] at sleeps
    cases hpc : pc u <;> rw [hpc] at sleeps <;> cases sleeps

theorem used_move {s : State τ} {limit : Nat} (inv : Inv limit s) {pc' : τ → Pc}
    (wakes : cond.Wakes s.pc pc') {t : τ} {next : Pc} {used : Nat}
    (counted : used + (s.pc t).holds.toNat = s.sem.used + next.holds.toNat) :
    used = population Pc.holds (update pc' t next) := by
  have holders := population_move holds_wake wakes t next
  rw [← inv.used] at holders
  omega

theorem waits_move {s : State τ} {limit : Nat} (inv : Inv limit s) {pc' : τ → Pc}
    (wakes : cond.Wakes s.pc pc') {t : τ} {next : Pc} {waits : Nat}
    (counted : waits + (s.pc t).waits.toNat = s.sem.waits + next.waits.toNat) :
    waits = population Pc.waits (update pc' t next) := by
  have waiters := population_move waits_wake wakes t next
  rw [← inv.waits] at waiters
  omega

/-- The loop of an acquire, by a thread that enters or resumes it; `before` has the
waiter that resumes counted off. -/
theorem acquireLoop_inv {limit : Nat} {s : State τ} (inv : Inv limit s) {t : τ}
    {before : SemaphoreT} (count : before.count = s.sem.count) (used : before.used = s.sem.used)
    (waits : before.waits + (s.pc t).waits.toNat = s.sem.waits)
    (outside : (s.pc t).holds = false) :
    Inv limit ⟨(acquireLoop before).1, update s.pc t (acquireLoop before).2⟩ := by
  have bound := inv.bound
  unfold acquireLoop
  split
  · rename_i full
    refine ⟨?_, ?_, ?_, ?_, fun u _ => ?_⟩
    · exact count.trans inv.count
    · simp only [count, used]
      exact bound
    · refine used_move inv (.refl _ _) ?_
      rw [outside, used]
      rfl
    · refine waits_move inv (.refl _ _) ?_
      rw [← waits]
      exact Nat.add_right_comm _ _ _
    · exact Nat.le_trans full (Nat.le_add_right _ _)
  · rename_i free
    have woken := population_update Pc.woken s.pc t .holding
    have lost : (s.pc t).woken.toNat ≤ 1 := Bool.toNat_le _
    refine ⟨?_, ?_, ?_, ?_, fun u sleeps => ?_⟩
    · exact count.trans inv.count
    · exact Nat.lt_of_not_le free
    · refine used_move inv (.refl _ _) ?_
      rw [outside, used]
      rfl
    · exact waits_move inv (.refl _ _) waits
    · have slots := inv.woken u (asleep_before (.refl _ _) Pc.noConfusion sleeps)
      have quiet : Pc.holding.woken.toNat = 0 := rfl
      change before.count ≤ before.used + 1 + population Pc.woken (update s.pc t .holding)
      rw [count, used]
      omega

theorem release_inv {limit : Nat} {s : State τ} (inv : Inv limit s) {t : τ} {pc' : τ → Pc}
    (here : s.pc t = .holding)
    (signal : cond.SignalIf (decide ((release s.sem).waits ≠ 0)) s.pc pc') :
    Inv limit ⟨release s.sem, update pc' t .idle⟩ := by
  have positive : 0 < s.sem.used := by
    rw [inv.used]
    exact population_pos.mpr ⟨t, by rw [here]; rfl⟩
  have released : release s.sem = { s.sem with used := s.sem.used - 1 } :=
    if_pos (Nat.pos_iff_ne_zero.mp positive)
  rw [released] at signal ⊢
  refine ⟨inv.count, ?_, ?_, ?_, fun u sleeps => ?_⟩
  · exact Nat.le_trans (Nat.sub_le _ _) inv.bound
  · refine used_move inv signal.wakes ?_
    rw [here]
    exact Nat.sub_add_cancel positive
  · refine waits_move inv signal.wakes ?_
    rw [here]
    rfl
  · -- Somebody still sleeps, so the signal was sent and has notified one more.
    have slept := asleep_before signal.wakes Pc.noConfusion sleeps
    have waiting : s.sem.waits ≠ 0 := by
      rw [inv.waits]
      exact Nat.pos_iff_ne_zero.mp (population_pos.mpr ⟨u, by rw [slept]; rfl⟩)
    have sent : cond.Signal s.pc pc' := by
      unfold Condition.SignalIf at signal
      rwa [if_pos (decide_eq_true waiting)] at signal
    have more := population_signal notified_woken sent
      (show cond.asleep (s.pc u) = true by rw [slept]; rfl)
    have slots := inv.woken u slept
    have kept : pc' t = .holding := by
      rcases signal.wakes t with same | ⟨asleep, _⟩
      · rw [same, here]
      · rw [here] at asleep
        cases asleep
    have moved := population_update Pc.woken pc' t .idle
    rw [kept] at moved
    have quiet : Pc.holding.woken.toNat = 0 ∧ Pc.idle.woken.toNat = 0 := ⟨rfl, rfl⟩
    change s.sem.count ≤ s.sem.used - 1 + population Pc.woken (update pc' t .idle)
    omega

theorem spurious_inv {limit : Nat} {s : State τ} (inv : Inv limit s) {t : τ}
    (here : cond.asleep (s.pc t) = true) : Inv limit ⟨s.sem, cond.notify s.pc t⟩ := by
  have wakes := cond.wakes_notify s.pc here
  refine ⟨inv.count, inv.bound, ?_, ?_, fun u sleeps => ?_⟩
  · rw [population_wakes holds_wake wakes]
    exact inv.used
  · rw [population_wakes waits_wake wakes]
    exact inv.waits
  · have more := population_notify notified_woken here
    have slept : s.pc u = .asleep :=
      asleep_before (.refl _ s.pc) (by cases s.pc t <;> exact Pc.noConfusion) sleeps
    have slots := inv.woken u slept
    change s.sem.count ≤ s.sem.used + population Pc.woken (cond.notify s.pc t)
    omega

theorem step_inv {limit : Nat} {s s' : State τ} {e : Event τ} (inv : Inv limit s)
    (step : Step s e s') : Inv limit s' := by
  cases step with
  | acquire t here => exact acquireLoop_inv inv rfl rfl (by rw [here]; rfl) (by rw [here]; rfl)
  | resume t here =>
      have positive : 0 < s.sem.waits := by
        rw [inv.waits]
        exact population_pos.mpr ⟨t, by rw [here]; rfl⟩
      refine acquireLoop_inv inv rfl rfl ?_ (by rw [here]; rfl)
      rw [here]
      exact Nat.sub_add_cancel positive
  | release t here signal => exact release_inv inv here signal
  | spurious t here => exact spurious_inv inv here

theorem run_inv {limit : Nat} {trace : List (Event τ)} {s : State τ}
    (run : Run (system τ limit) trace s) : Inv limit s := by
  refine Run.invariant (fun _ s => Inv limit s) ?_ ?_ run
  · rintro s rfl
    refine ⟨rfl, Nat.zero_le _, ?_, ?_, fun _ sleeps => by cases sleeps⟩
    · exact (population_eq_zero.mpr fun _ => rfl).symm
    · exact (population_eq_zero.mpr fun _ => rfl).symm
  · intro _ _ _ _ inv step
    exact step_inv inv step

/-- In every run the slots in use are the threads that hold one, at most `limit`,
and while a thread sleeps un-notified there is a notified thread on its way for
every free slot. -/
theorem semaphore_limit {limit : Nat} {trace : List (Event τ)} {s : State τ}
    (run : Run (system τ limit) trace s) :
    s.sem.count = limit ∧ s.sem.used ≤ s.sem.count ∧
    s.sem.used = population Pc.holds s.pc ∧
    ∀ t, s.pc t = .asleep → s.sem.count - s.sem.used ≤ population Pc.woken s.pc := by
  have inv := run_inv run
  refine ⟨inv.count, inv.bound, inv.used, fun t sleeps => ?_⟩
  exact Nat.sub_le_iff_le_add'.mpr (inv.woken t sleeps)

/-- Two threads wait for the only slot; its release notifies the first of them. -/
theorem semaphore_limit_waiters :
    ∃ (trace : List (Event (Fin 3))) (s : State (Fin 3)), Run (system (Fin 3) 1) trace s ∧
      s.pc 2 = .asleep ∧ s.sem.count - s.sem.used = 1 ∧ 1 ≤ population Pc.woken s.pc := by
  have start : Run (system (Fin 3) 1) [] ⟨semaphoreInit 1, fun _ => .idle⟩ := .start rfl
  have waiting := ((start.next (Step.acquire 0 rfl)).next (.acquire 1 rfl)).next (.acquire 2 rfl)
  have freed := waiting.next (.release 0 rfl ⟨some 1, .one 1 rfl⟩)
  exact ⟨_, _, freed, rfl, rfl, (semaphore_limit freed).2.2.2 2 rfl⟩

end CprFormal.Thread.Semaphore
