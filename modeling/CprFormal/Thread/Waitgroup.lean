import Mathlib.Algebra.GroupWithZero.Nat
import Mathlib.Data.List.Infix
import CprFormal.Library.Monitor
import CprFormal.Library.Transition

/-!
# The wait group of `thread.c`

The critical sections of `cpr_waitgroup_add`, `cpr_waitgroup_done` and
`cpr_waitgroup_wait` are one step each; that of a wait ends where the thread
unlocks and returns or enters `cnd_wait`.  Only a done brings the count to zero,
and it then wakes every waiter.
-/

namespace CprFormal.Thread.Waitgroup

open Function (update)
open CprFormal.Library.Monitor CprFormal.Library.Transition

/-- The counter of `cpr_waitgroup_t`. -/
structure WaitgroupT where
  count : UInt32
  deriving DecidableEq

/-- Where a thread stands between two critical sections.  `awake` has been notified
and must retake the mutex and test the count again. -/
inductive Pc where
  | idle
  | asleep
  | awake
  deriving DecidableEq, Repr

namespace Pc

def sleeps : Pc → Bool
  | asleep => true
  | _ => false

def wake : Pc → Pc
  | asleep => awake
  | pc => pc

end Pc

/-- The condition variable of `cpr_waitgroup_t`. -/
def bcast : Condition Pc := ⟨Pc.sleeps, Pc.wake⟩

/-- `cpr_waitgroup_init` -/
def waitgroupInit (count : UInt32) : WaitgroupT := ⟨count⟩

/-- `cpr_waitgroup_add` between lock and unlock. -/
def add (wg : WaitgroupT) (count : UInt32) : WaitgroupT := ⟨wg.count + count⟩

/-- `cpr_waitgroup_done` before its broadcast. -/
def done (wg : WaitgroupT) : WaitgroupT := if wg.count ≠ 0 then ⟨wg.count - 1⟩ else wg

/-- The loop of `cpr_waitgroup_wait` by the owner of the mutex. -/
def waitLoop (wg : WaitgroupT) : Pc := if wg.count ≠ 0 then .asleep else .idle

/-- A wait shows whether it returns. -/
inductive Event (τ : Type) where
  | add (t : τ) (count : UInt32)
  | done (t : τ)
  | wait (t : τ) (returned : Bool)
  | resume (t : τ) (returned : Bool)
  | spurious (t : τ)

/-- The step is a wait that returns. -/
def Event.returns {τ : Type} : Event τ → Bool
  | wait _ returned | resume _ returned => returned
  | _ => false

structure State (τ : Type) where
  wg : WaitgroupT
  pc : τ → Pc

variable {τ : Type} [DecidableEq τ]

inductive Step : State τ → Event τ → State τ → Prop where
  | add {s : State τ} (t : τ) (count : UInt32) (here : s.pc t = .idle) :
      Step s (.add t count) { s with wg := add s.wg count }
  | done {s : State τ} (t : τ) (here : s.pc t = .idle) :
      Step s (.done t)
        { wg := done s.wg
          pc := if (done s.wg).count = 0 then bcast.broadcast s.pc else s.pc }
  | wait {s : State τ} (t : τ) (here : s.pc t = .idle) :
      Step s (.wait t (waitLoop s.wg == .idle)) { s with pc := update s.pc t (waitLoop s.wg) }
  | resume {s : State τ} (t : τ) (here : s.pc t = .awake) :
      Step s (.resume t (waitLoop s.wg == .idle)) { s with pc := update s.pc t (waitLoop s.wg) }
  | spurious {s : State τ} (t : τ) (here : bcast.asleep (s.pc t) = true) :
      Step s (.spurious t) { s with pc := bcast.notify s.pc t }

/-- All threads of type `τ` working on one wait group. -/
def system (τ : Type) [DecidableEq τ] (count : UInt32) : System (State τ) (Event τ) where
  init s := s = ⟨waitgroupInit count, fun _ => .idle⟩
  step := Step

/-- The sum of all adds, as an exact integer. -/
def added (trace : List (Event τ)) : Nat :=
  (trace.map fun
    | .add _ count => count.toNat
    | _ => 0).sum

/-- The number of dones. -/
def dones (trace : List (Event τ)) : Nat :=
  (trace.map fun
    | .done _ => 1
    | _ => 0).sum

/-- The adds do not overflow the count and at no moment there are more dones than the
initial count and the adds so far allow. -/
structure Balanced (count : UInt32) (trace : List (Event τ)) : Prop where
  small : count.toNat + added trace < 2 ^ 32
  covered : ∀ before, before <+: trace → dones before ≤ count.toNat + added before

omit [DecidableEq τ] in
theorem added_append (trace : List (Event τ)) (e : Event τ) :
    added (trace ++ [e]) = added trace + added [e] := by
  simp [added]

omit [DecidableEq τ] in
theorem dones_append (trace : List (Event τ)) (e : Event τ) :
    dones (trace ++ [e]) = dones trace + dones [e] := by
  simp [dones]

omit [DecidableEq τ] in
theorem Balanced.before {count : UInt32} {trace : List (Event τ)} {e : Event τ}
    (balanced : Balanced count (trace ++ [e])) : Balanced count trace where
  small := by
    have small := balanced.small
    rw [added_append] at small
    omega
  covered before earlier := balanced.covered before (earlier.trans (List.prefix_append _ _))

/-! ## The count -/

theorem add_count {wg : WaitgroupT} {count : UInt32}
    (small : wg.count.toNat + count.toNat < 2 ^ 32) :
    (add wg count).count.toNat = wg.count.toNat + count.toNat := by
  change (wg.count + count).toNat = _
  rw [UInt32.toNat_add]
  exact Nat.mod_eq_of_lt small

theorem done_count {wg : WaitgroupT} (positive : 0 < wg.count.toNat) :
    (done wg).count.toNat + 1 = wg.count.toNat := by
  have counted : wg.count ≠ 0 := by
    intro zero
    rw [zero] at positive
    exact Nat.lt_irrefl 0 positive
  unfold done
  rw [if_pos counted]
  have one : (1 : UInt32) ≤ wg.count := UInt32.le_iff_toNat_le.mpr positive
  change (wg.count - 1).toNat + 1 = _
  rw [UInt32.toNat_sub_of_le _ _ one]
  exact Nat.sub_add_cancel positive

/-- The count after every balanced run, and the sleepers. -/
structure Inv (count : UInt32) (trace : List (Event τ)) (s : State τ) : Prop where
  count : s.wg.count.toNat + dones trace = count.toNat + added trace
  asleep : ∀ t, s.pc t = .asleep → s.wg.count ≠ 0

omit [DecidableEq τ] in
theorem wakes_asleep {pc pc' : τ → Pc} (wakes : bcast.Wakes pc pc') {t : τ}
    (sleeps : pc' t = .asleep) : pc t = .asleep := by
  rcases wakes t with same | ⟨_, woken⟩
  · rw [← same, sleeps]
  · rw [woken] at sleeps
    cases hpc : pc t <;> rw [hpc] at sleeps <;> cases sleeps

/-- Whoever is asleep behind the loop of a wait sleeps on a count that is not zero. -/
theorem waitLoop_asleep {wg : WaitgroupT} {pc : τ → Pc} {t u : τ}
    (before : ∀ u, pc u = .asleep → wg.count ≠ 0)
    (sleeps : update pc t (waitLoop wg) u = .asleep) : wg.count ≠ 0 := by
  by_cases own : u = t
  · subst own
    rw [Function.update_self] at sleeps
    unfold waitLoop at sleeps
    split at sleeps
    · assumption
    · cases sleeps
  · rw [Function.update_of_ne own] at sleeps
    exact before u sleeps

theorem waitLoop_returns {wg : WaitgroupT} (returned : (waitLoop wg == .idle) = true) :
    wg.count = 0 := by
  unfold waitLoop at returned
  split at returned
  · cases returned
  · rename_i zero
    exact Decidable.not_not.mp zero

theorem step_returns {s s' : State τ} {e : Event τ} (step : Step s e s')
    (returns : e.returns = true) : s.wg.count = 0 := by
  cases step with
  | wait t here => exact waitLoop_returns returns
  | resume t here => exact waitLoop_returns returns
  | add t n here => cases returns
  | done t here => cases returns
  | spurious t here => cases returns

theorem step_inv {count : UInt32} {trace : List (Event τ)} {s s' : State τ} {e : Event τ}
    (balanced : Balanced count (trace ++ [e])) (inv : Inv count trace s) (step : Step s e s') :
    Inv count (trace ++ [e]) s' := by
  have counted := inv.count
  cases step with
  | add t n here =>
      have small := balanced.small
      have none_done : dones [Event.add t n] = 0 := rfl
      have some_added : added [Event.add t n] = n.toNat := Nat.add_zero _
      rw [added_append, some_added] at small
      have sum : (add s.wg n).count.toNat = s.wg.count.toNat + n.toNat :=
        add_count (by omega)
      constructor
      · change (add s.wg n).count.toNat + _ = _
        rw [dones_append, added_append, none_done, some_added, sum]
        omega
      · intro u sleeps zero
        have positive : s.wg.count.toNat ≠ 0 := by
          intro none_left
          exact inv.asleep u sleeps (UInt32.toNat_inj.mp none_left)
        have nothing : (add s.wg n).count.toNat = 0 := by
          rw [zero]
          rfl
        omega
  | done t here =>
      have covered := balanced.covered (trace ++ [.done t]) (List.prefix_refl _)
      have one_done : dones [Event.done t] = 1 := rfl
      have none_added : added [Event.done t] = 0 := rfl
      rw [dones_append, added_append, one_done, none_added] at covered
      have left : (done s.wg).count.toNat + 1 = s.wg.count.toNat := done_count (by omega)
      constructor
      · change (done s.wg).count.toNat + _ = _
        rw [dones_append, added_append, one_done, none_added]
        omega
      · intro u sleeps zero
        have zero : (done s.wg).count = 0 := zero
        have awake := bcast.broadcast_asleep (fun pc => by cases pc <;> rfl) s.pc u
        have sleeps : bcast.broadcast s.pc u = .asleep := by
          simpa only [if_pos zero] using sleeps
        rw [sleeps] at awake
        cases awake
  | wait t here =>
      refine ⟨?_, fun u sleeps => waitLoop_asleep inv.asleep sleeps⟩
      rw [dones_append, added_append]
      exact counted
  | resume t here =>
      refine ⟨?_, fun u sleeps => waitLoop_asleep inv.asleep sleeps⟩
      rw [dones_append, added_append]
      exact counted
  | spurious t here =>
      refine ⟨?_, fun u sleeps => inv.asleep u (wakes_asleep (bcast.wakes_notify s.pc here) sleeps)⟩
      rw [dones_append, added_append]
      exact counted

theorem run_inv {count : UInt32} {trace : List (Event τ)} {s : State τ}
    (run : Run (system τ count) trace s) : Balanced count trace → Inv count trace s := by
  refine Run.invariant (fun trace s => Balanced count trace → Inv count trace s) ?_ ?_ run
  · rintro s rfl _
    exact ⟨rfl, fun _ sleeps => by cases sleeps⟩
  · intro trace s e s' inv step balanced
    exact step_inv balanced (inv balanced.before) step

/-- In every balanced run the count is the initial count and the adds less the dones,
a wait only returns at zero, and at zero no thread sleeps un-notified. -/
theorem waitgroup_count {count : UInt32} {trace : List (Event τ)} {s : State τ}
    (run : Run (system τ count) trace s) (small : count.toNat + added trace < 2 ^ 32)
    (covered : ∀ before, before <+: trace → dones before ≤ count.toNat + added before) :
    s.wg.count.toNat = count.toNat + added trace - dones trace ∧
    (∀ e s', Step s e s' → e.returns = true → s.wg.count = 0) ∧
    (s.wg.count = 0 → ∀ t, s.pc t ≠ .asleep) := by
  have inv := run_inv run ⟨small, covered⟩
  have counted := inv.count
  refine ⟨by omega, fun e s' step returns => step_returns step returns, ?_⟩
  exact fun zero t sleeps => inv.asleep t sleeps zero

/-- A waiter for two dones, with an add between them. -/
theorem waitgroup_count_add :
    ∃ (trace : List (Event (Fin 2))) (s : State (Fin 2)), Run (system (Fin 2) 1) trace s ∧
      added trace = 1 ∧ dones trace = 2 ∧ s.wg.count.toNat = 0 ∧ s.pc 0 = .awake := by
  have start : Run (system (Fin 2) 1) [] ⟨waitgroupInit 1, fun _ => .idle⟩ := .start rfl
  have waiting := (start.next (Step.wait 0 rfl)).next (.add 1 1 rfl)
  have done := (waiting.next (.done 1 rfl)).next (.done 1 rfl)
  refine ⟨_, _, done, rfl, rfl, (waitgroup_count done (by decide) ?_).1, rfl⟩
  intro before earlier
  have listed := (List.mem_inits _ _).mpr earlier
  simp only [List.nil_append, List.cons_append, List.inits, List.map_cons, List.map_nil,
    List.mem_cons, List.not_mem_nil, or_false] at listed
  rcases listed with rfl | rfl | rfl | rfl | rfl <;> decide

end CprFormal.Thread.Waitgroup
