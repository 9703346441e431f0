import CprFormal.Library.Mutex
import CprFormal.Library.Population
import CprFormal.Thread.Waitgroup

/-!
# Tearing a wait group down

`cpr_waitgroup_finish` waits and then destroys the condition variable and the
mutex, while the last worker may only just be leaving `cpr_waitgroup_done`.  Here
every lock and unlock is a step of its own.  The waiter sees zero with the mutex
in its hands, so no worker is between its lock and its unlock, and none is still
before its lock because its done would not have been counted.
-/

namespace CprFormal.Thread.WaitgroupFinish

open Function (update)
open CprFormal.Library.Monitor CprFormal.Library.Mutex CprFormal.Library.Population
open CprFormal.Library.Transition
open CprFormal.Thread.Waitgroup (WaitgroupT waitgroupInit)

/-- Where a thread stands.  `...Lock` waits for the mutex, `...Count` and `...Test`
own it, `...Unlock` is about to give it up.  A wait knows whether it is that of
`cpr_waitgroup_finish`. -/
inductive Pc where
  | idle
  | doneLock
  | doneCount
  | doneUnlock
  | addLock (count : UInt32)
  | addCount (count : UInt32)
  | addUnlock
  | waitLock (finish : Bool)
  | waitTest (finish : Bool)
  | asleep (finish : Bool)
  | awake (finish : Bool)
  | waitUnlock (finish : Bool)
  | freeCond
  | freeMutex
  deriving DecidableEq

namespace Pc

def holds : Pc → Bool
  | doneCount | doneUnlock | addCount _ | addUnlock | waitTest _ | waitUnlock _ => true
  | _ => false

/-- Where a thread that waits for the mutex continues once it has it. -/
def entered : Pc → Option Pc
  | doneLock => some doneCount
  | addLock count => some (addCount count)
  | waitLock finish | awake finish => some (waitTest finish)
  | _ => none

def sleeps : Pc → Bool
  | asleep _ => true
  | _ => false

def wake : Pc → Pc
  | asleep finish => awake finish
  | pc => pc

/-- A done that has been called and not been counted. -/
def uncounted : Pc → Bool
  | doneLock | doneCount => true
  | _ => false

/-- Outside of the wait group or inside of a done. -/
def works : Pc → Bool
  | idle | doneLock | doneCount | doneUnlock => true
  | _ => false

/-- The wait of a finish is over and its teardown is not. -/
def finishing : Pc → Bool
  | waitUnlock true | freeCond | freeMutex => true
  | _ => false

end Pc

/-- The condition variable of `cpr_waitgroup_t`. -/
def bcast : Condition Pc := ⟨Pc.sleeps, Pc.wake⟩

/-- `counted` and `added` are the changes of the count under the mutex. -/
inductive Event (τ : Type) where
  | doneCall (t : τ)
  | counted (t : τ)
  | addCall (t : τ) (count : UInt32)
  | added (t : τ) (count : UInt32)
  | waitCall (t : τ) (finish : Bool)
  | finishReturn (t : τ)
  | silent (t : τ)
  deriving DecidableEq

namespace Event

variable {τ : Type}

def actor : Event τ → τ
  | doneCall t | counted t | addCall t _ | added t _ | waitCall t _ => t
  | finishReturn t | silent t => t

/-- A call other than that of a done. -/
def owners : Event τ → Bool
  | addCall _ _ | waitCall _ _ => true
  | _ => false

end Event

/-- The wait group; `cond` and `mutex` tell whether the two still exist. -/
structure State (τ : Type) where
  wg : WaitgroupT
  cond : Bool
  mutex : Bool
  lock : Option τ
  pc : τ → Pc

variable {τ : Type} [DecidableEq τ]

/-- One step of one thread.  Nothing keeps a thread from using what has been
destroyed. -/
inductive Step : State τ → Event τ → State τ → Prop where
  | doneCall {s : State τ} (t : τ) (here : s.pc t = .idle) :
      Step s (.doneCall t) { s with pc := update s.pc t .doneLock }
  | addCall {s : State τ} (t : τ) (count : UInt32) (here : s.pc t = .idle) :
      Step s (.addCall t count) { s with pc := update s.pc t (.addLock count) }
  | waitCall {s : State τ} (t : τ) (finish : Bool) (here : s.pc t = .idle) :
      Step s (.waitCall t finish) { s with pc := update s.pc t (.waitLock finish) }
  | acquire {s : State τ} (t : τ) {next : Pc} (here : (s.pc t).entered = some next)
      (free : s.lock = none) :
      Step s (.silent t) { s with lock := some t, pc := update s.pc t next }
  -- cpr_waitgroup_done
  | doneCount {s : State τ} (t : τ) (here : s.pc t = .doneCount) :
      Step s (.counted t)
        { s with
          wg := Waitgroup.done s.wg
          pc := update
            (if (Waitgroup.done s.wg).count = 0 then bcast.broadcast s.pc else s.pc)
            t .doneUnlock }
  | doneUnlock {s : State τ} (t : τ) (here : s.pc t = .doneUnlock) :
      Step s (.silent t) { s with lock := none, pc := update s.pc t .idle }
  -- cpr_waitgroup_add
  | addCount {s : State τ} (t : τ) {count : UInt32} (here : s.pc t = .addCount count) :
      Step s (.added t count)
        { s with wg := Waitgroup.add s.wg count, pc := update s.pc t .addUnlock }
  | addUnlock {s : State τ} (t : τ) (here : s.pc t = .addUnlock) :
      Step s (.silent t) { s with lock := none, pc := update s.pc t .idle }
  -- cpr_waitgroup_wait
  | waitSleep {s : State τ} (t : τ) {finish : Bool} (here : s.pc t = .waitTest finish)
      (some_left : s.wg.count ≠ 0) :
      Step s (.silent t) { s with lock := none, pc := update s.pc t (.asleep finish) }
  | waitOver {s : State τ} (t : τ) {finish : Bool} (here : s.pc t = .waitTest finish)
      (none_left : s.wg.count = 0) :
      Step s (.silent t) { s with pc := update s.pc t (.waitUnlock finish) }
  | spurious {s : State τ} (t : τ) (here : (s.pc t).sleeps = true) :
      Step s (.silent t) { s with pc := bcast.notify s.pc t }
  | waitUnlock {s : State τ} (t : τ) (here : s.pc t = .waitUnlock false) :
      Step s (.silent t) { s with lock := none, pc := update s.pc t .idle }
  -- cpr_waitgroup_finish behind its wait
  | finishUnlock {s : State τ} (t : τ) (here : s.pc t = .waitUnlock true) :
      Step s (.silent t) { s with lock := none, pc := update s.pc t .freeCond }
  | freeCond {s : State τ} (t : τ) (here : s.pc t = .freeCond) :
      Step s (.silent t) { s with cond := false, pc := update s.pc t .freeMutex }
  | freeMutex {s : State τ} (t : τ) (here : s.pc t = .freeMutex) :
      Step s (.finishReturn t) { s with mutex := false, pc := update s.pc t .idle }

/-- All threads of type `τ` working on one wait group. -/
def system (τ : Type) [DecidableEq τ] (count : UInt32) : System (State τ) (Event τ) where
  init s := s = ⟨waitgroupInit count, true, true, none, fun _ => .idle⟩
  step := Step

/-- The number of dones called. -/
def doneCalls (trace : List (Event τ)) : Nat :=
  (trace.map fun
    | .doneCall _ => 1
    | _ => 0).sum

/-- The number of dones that have been counted. -/
def counted (trace : List (Event τ)) : Nat :=
  (trace.map fun
    | .counted _ => 1
    | _ => 0).sum

/-- The sum of all adds, as an exact integer. -/
def added (trace : List (Event τ)) : Nat :=
  (trace.map fun
    | .added _ count => count.toNat
    | _ => 0).sum

/-- How a wait group is meant to be used: the adds do not overflow the count, no more
dones are called than the initial count and the adds so far allow, only `main` adds,
waits and finishes, and a finish is its last call. -/
structure Used (main : τ) (count : UInt32) (trace : List (Event τ)) : Prop where
  small : count.toNat + added trace < 2 ^ 32
  covered : ∀ before, before <+: trace → doneCalls before ≤ count.toNat + added before
  owned : ∀ e ∈ trace, e.owners = true → e.actor = main
  last : ∀ before after, trace = before ++ after → .finishReturn main ∈ before →
    ∀ e ∈ after, e.actor ≠ main

omit [DecidableEq τ] in
theorem doneCalls_append (trace : List (Event τ)) (e : Event τ) :
    doneCalls (trace ++ [e]) = doneCalls trace + doneCalls [e] := by
  simp [doneCalls]

omit [DecidableEq τ] in
theorem counted_append (trace : List (Event τ)) (e : Event τ) :
    counted (trace ++ [e]) = counted trace + counted [e] := by
  simp [counted]

omit [DecidableEq τ] in
theorem added_append (trace : List (Event τ)) (e : Event τ) :
    added (trace ++ [e]) = added trace + added [e] := by
  simp [added]

omit [DecidableEq τ] in
theorem Used.before {main : τ} {count : UInt32} {trace : List (Event τ)} {e : Event τ}
    (used : Used main count (trace ++ [e])) : Used main count trace where
  small := by
    have small := used.small
    rw [added_append] at small
    omega
  covered before earlier := used.covered before (earlier.trans (List.prefix_append _ _))
  owned e' member := used.owned e' (List.mem_append_left _ member)
  last before after split returned e' member :=
    used.last before (after ++ [e]) (by rw [split, List.append_assoc]) returned e'
      (List.mem_append_left _ member)

theorem wake_holds (pc : Pc) : pc.wake.holds = pc.holds := by
  cases pc <;> rfl

theorem wake_works (pc : Pc) : pc.wake.works = pc.works := by
  cases pc <;> rfl

theorem wake_uncounted (pc : Pc) : pc.wake.uncounted = pc.uncounted := by
  cases pc <;> rfl

theorem entered_same {pc next : Pc} (here : pc.entered = some next) :
    next.holds = true ∧ next.works = pc.works ∧ next.uncounted = pc.uncounted ∧
      next.sleeps = false ∧ next.finishing = false := by
  cases pc <;> simp_all [Pc.entered] <;> subst here <;> exact ⟨rfl, rfl, rfl, rfl, rfl⟩

omit [DecidableEq τ] in
/-- The broadcast of a done, when there is one. -/
theorem done_wakes (wg : WaitgroupT) (pc : τ → Pc) :
    bcast.Wakes pc (if wg.count = 0 then bcast.broadcast pc else pc) := by
  split
  · exact Condition.wakes_broadcast _ _
  · exact .refl _ _

theorem step_owner {s s' : State τ} {e : Event τ} (owner : Owner Pc.holds s.lock s.pc)
    (step : Step s e s') : Owner Pc.holds s'.lock s'.pc := by
  cases step with
  | doneCall t here | addCall t _ here | waitCall t _ here | waitOver t here
  | addCount t here | freeCond t here | freeMutex t here =>
      exact owner.move (by rw [here]; rfl)
  | acquire t here free =>
      rw [free] at owner
      exact owner.enter (entered_same here).1
  | doneCount t here =>
      have wakes := done_wakes (Waitgroup.done s.wg) s.pc
      refine (owner.wakes (fun pc _ => wake_holds pc) wakes).move ?_
      rw [wakes.congr Pc.holds (fun pc _ => wake_holds pc), here]
      rfl
  | doneUnlock t here | addUnlock t here | waitSleep t here | waitUnlock t here
  | finishUnlock t here =>
      exact owner.leave (by rw [here]; rfl) rfl
  | spurious t here =>
      exact owner.wakes (fun pc _ => wake_holds pc) (bcast.wakes_notify s.pc here)

/-- A step of one thread leaves what a wake-up does not change of the others. -/
theorem step_others {β : Type} {f : Pc → β} (blind : ∀ pc, f pc.wake = f pc)
    {s s' : State τ} {e : Event τ} (step : Step s e s') {u : τ} (other : u ≠ e.actor) :
    f (s'.pc u) = f (s.pc u) := by
  cases step with
  | doneCount t here =>
      have wakes := done_wakes (Waitgroup.done s.wg) s.pc
      simp only [Function.update_of_ne (show u ≠ t from other)]
      exact wakes.congr f (fun pc _ => blind pc) u
  | spurious t here =>
      have apart : u ≠ t := other
      simp [Condition.notify, apart]
  | doneCall t | addCall t | waitCall t | acquire t | doneUnlock t | addCount t | addUnlock t
  | waitSleep t | waitOver t | waitUnlock t | finishUnlock t | freeCond t | freeMutex t =>
      simp only [Function.update_of_ne (show u ≠ t from other)]

/-! ## Counting the dones -/

/-- How the dones still to be counted change when one thread moves and others are woken. -/
theorem uncounted_move [Fintype τ] {pc pc' : τ → Pc} (wakes : bcast.Wakes pc pc') (t : τ)
    (x : Pc) :
    population Pc.uncounted (update pc' t x) + ((pc t).uncounted).toNat =
      population Pc.uncounted pc + x.uncounted.toNat :=
  population_move (fun pc _ => wake_uncounted pc) wakes t x

theorem uncounted_same [Fintype τ] {pc pc' : τ → Pc} (wakes : bcast.Wakes pc pc') {t : τ}
    {x : Pc} (same : x.uncounted = (pc t).uncounted) :
    population Pc.uncounted (update pc' t x) = population Pc.uncounted pc := by
  have moved := uncounted_move wakes t x
  rw [same] at moved
  omega

/-- Every done called has been counted or is still to be counted. -/
theorem step_uncounted [Fintype τ] {s s' : State τ} {e : Event τ} {trace : List (Event τ)}
    (step : Step s e s')
    (before : population Pc.uncounted s.pc + counted trace = doneCalls trace) :
    population Pc.uncounted s'.pc + counted (trace ++ [e]) = doneCalls (trace ++ [e]) := by
  rw [counted_append, doneCalls_append]
  have still (same : population Pc.uncounted s'.pc = population Pc.uncounted s.pc)
      (quiet : counted [e] = 0 ∧ doneCalls [e] = 0) :
      population Pc.uncounted s'.pc + (counted trace + counted [e]) =
        doneCalls trace + doneCalls [e] := by
    rw [same, quiet.1, quiet.2]
    exact before
  cases step with
  | doneCall t here =>
      have moved := uncounted_move (.refl _ s.pc) t .doneLock
      rw [here] at moved
      change population Pc.uncounted (update s.pc t .doneLock) + (counted trace + 0) =
        doneCalls trace + 1
      simp only [Pc.uncounted, Bool.toNat_true, Bool.toNat_false] at moved
      omega
  | doneCount t here =>
      have moved := uncounted_move (done_wakes (Waitgroup.done s.wg) s.pc) t .doneUnlock
      rw [here] at moved
      change population Pc.uncounted (update _ t .doneUnlock) + (counted trace + 1) =
        doneCalls trace + 0
      simp only [Pc.uncounted, Bool.toNat_true, Bool.toNat_false] at moved
      omega
  | acquire t here free =>
      exact still (uncounted_same (.refl _ _) (entered_same here).2.2.1) ⟨rfl, rfl⟩
  | spurious t here =>
      exact still (population_wakes (fun pc _ => wake_uncounted pc)
        (bcast.wakes_notify s.pc here)) ⟨rfl, rfl⟩
  | addCall t n here | waitCall t _ here | doneUnlock t here | addCount t here
  | addUnlock t here | waitSleep t here | waitOver t here | waitUnlock t here
  | finishUnlock t here | freeCond t here | freeMutex t here =>
      exact still (uncounted_same (.refl _ _) (by rw [here]; rfl)) ⟨rfl, rfl⟩

/-- What holds in every run of a wait group that is used as it is meant to be. -/
structure Inv [Fintype τ] (main : τ) (count : UInt32) (trace : List (Event τ)) (s : State τ) :
    Prop where
  owner : Owner Pc.holds s.lock s.pc
  uncounted : population Pc.uncounted s.pc + counted trace = doneCalls trace
  count : s.wg.count.toNat + counted trace = count.toNat + added trace
  asleep : ∀ t, (s.pc t).sleeps = true → s.wg.count ≠ 0
  works : ∀ t, t ≠ main → (s.pc t).works = true
  cond : s.cond = false → s.pc main = .freeMutex ∨ .finishReturn main ∈ trace
  mutex : s.mutex = false → .finishReturn main ∈ trace
  returned : .finishReturn main ∈ trace → s.pc main = .idle ∧ s.mutex = false
  past : (s.pc main).finishing = true ∨ s.cond = false ∨ s.mutex = false →
    s.wg.count = 0 ∧ ∀ t, t ≠ main → s.pc t = .idle

variable [Fintype τ] {main : τ} {count : UInt32} {trace : List (Event τ)} {s s' : State τ}
  {e : Event τ}

/-- The count is the initial count and the adds less the counted dones. -/
theorem step_count (used : Used main count (trace ++ [e])) (inv : Inv main count trace s)
    (step : Step s e s') :
    s'.wg.count.toNat + counted (trace ++ [e]) = count.toNat + added (trace ++ [e]) := by
  have before := inv.count
  rw [counted_append, added_append]
  cases step with
  | doneCount t here =>
      have covered := used.covered trace (List.prefix_append _ _)
      have waiting : 0 < population Pc.uncounted s.pc :=
        population_pos.mpr ⟨t, by rw [here]; rfl⟩
      have uncounted := inv.uncounted
      have positive : 0 < s.wg.count.toNat := by omega
      have left := Waitgroup.done_count positive
      change (Waitgroup.done s.wg).count.toNat + (counted trace + 1) = _ + (added trace + 0)
      omega
  | @addCount t n here =>
      have small := used.small
      have one_added : added [Event.added t n] = n.toNat := Nat.add_zero _
      rw [added_append, one_added] at small
      have fits : s.wg.count.toNat + n.toNat < 2 ^ 32 := by omega
      have sum := Waitgroup.add_count fits
      change (Waitgroup.add s.wg n).count.toNat + (counted trace + 0) = _ + (_ + added [_])
      omega
  | _ => simpa [counted, added] using before

theorem count_pos {wg : WaitgroupT} : wg.count ≠ 0 ↔ 0 < wg.count.toNat := by
  rw [Nat.pos_iff_ne_zero, Ne, Ne, ← UInt32.toNat_inj]
  rfl

/-- Whoever sleeps has a count to wait for. -/
theorem step_asleep (used : Used main count (trace ++ [e])) (inv : Inv main count trace s)
    (step : Step s e s') (u : τ) (sleeps : (s'.pc u).sleeps = true) : s'.wg.count ≠ 0 := by
  have own (t : τ) (x : Pc) (awake : x.sleeps = false)
      (moved : (update s.pc t x u).sleeps = true) : s.wg.count ≠ 0 := by
    by_cases same : u = t
    · subst same
      rw [Function.update_self, awake] at moved
      cases moved
    · rw [Function.update_of_ne same] at moved
      exact inv.asleep u moved
  cases step with
  | waitSleep t here some_left => exact some_left
  | doneCount t here =>
      intro zero
      have zero : (Waitgroup.done s.wg).count = 0 := zero
      simp only [if_pos zero] at sleeps
      by_cases same : u = t
      · subst same
        rw [Function.update_self] at sleeps
        cases sleeps
      · rw [Function.update_of_ne same] at sleeps
        have awake := bcast.broadcast_asleep (fun pc => by cases pc <;> rfl) s.pc u
        have asleep : (bcast.broadcast s.pc u).sleeps = false := awake
        rw [asleep] at sleeps
        cases sleeps
  | @addCount t n here =>
      have before := count_pos.mp (own t .addUnlock rfl sleeps)
      have counted := step_count used inv (.addCount t here)
      have earlier := inv.count
      have one_added : added [Event.added t n] = n.toNat := Nat.add_zero _
      have none_counted : WaitgroupFinish.counted [Event.added t n] = 0 := rfl
      rw [added_append, counted_append, one_added, none_counted] at counted
      apply count_pos.mpr
      change 0 < (Waitgroup.add s.wg n).count.toNat
      simp only at counted
      omega
  | acquire t here free => exact own t _ (entered_same here).2.2.2.1 sleeps
  | spurious t here => exact inv.asleep t here
  | doneCall t | addCall t | waitCall t | doneUnlock t | addUnlock t
  | waitOver t | waitUnlock t | finishUnlock t | freeCond t | freeMutex t =>
      exact own t _ rfl sleeps

/-- The other threads do nothing but dones. -/
theorem step_works (used : Used main count (trace ++ [e])) (inv : Inv main count trace s)
    (step : Step s e s') (u : τ) (other : u ≠ main) : (s'.pc u).works = true := by
  have before := inv.works u other
  by_cases own : u = e.actor
  · have owned := used.owned e (by simp)
    subst own
    cases step with
    | doneCall t here | doneCount t here | doneUnlock t here => simp [Event.actor, Pc.works]
    | addCall t | waitCall t => exact absurd (owned rfl) other
    | acquire t here free =>
        simpa [Event.actor, (entered_same here).2.1] using before
    | spurious t here => simpa [Event.actor, Condition.notify, bcast, wake_works] using before
    | addCount t here | addUnlock t here | waitSleep t here | waitOver t here
    | waitUnlock t here | finishUnlock t here | freeCond t here | freeMutex t here =>
        rw [Event.actor, here] at before
        cases before
  · rw [step_others wake_works step own]
    exact before

/-! ## The teardown -/

omit [DecidableEq τ] [Fintype τ] in
/-- Behind a finish the owner makes no further step. -/
theorem Used.finished (used : Used main count (trace ++ [e]))
    (returned : .finishReturn main ∈ trace) : e.actor ≠ main :=
  used.last trace [e] rfl returned e (by simp)

/-- Only the owner is ever at a point that is not one of a done. -/
theorem Inv.is_main (inv : Inv main count trace s) {t : τ} {pc : Pc} (here : s.pc t = pc)
    (point : pc.works = false) : t = main := by
  by_cases own : t = main
  · exact own
  · have works := inv.works t own
    rw [here, point] at works
    cases works

omit [Fintype τ] in
/-- A thread outside of the wait group can only call. -/
theorem step_idle (step : Step s e s') (here : s.pc e.actor = .idle) :
    e.owners = true ∨ e = .doneCall e.actor := by
  cases step with
  | doneCall t => exact .inr rfl
  | addCall t | waitCall t => exact .inl rfl
  | acquire t there =>
      rw [show s.pc t = .idle from here] at there
      cases there
  | spurious t there =>
      rw [show s.pc t = .idle from here] at there
      cases there
  | doneCount t there | doneUnlock t there | addCount t there | addUnlock t there
  | waitSleep t there | waitOver t there | waitUnlock t there | finishUnlock t there
  | freeCond t there | freeMutex t there =>
      rw [Event.actor, there] at here
      cases here

omit [Fintype τ] in
/-- A teardown goes on without the count. -/
theorem step_finishing (step : Step s e s') (finishing : (s.pc e.actor).finishing = true) :
    s'.wg = s.wg ∧ (s.pc e.actor = .freeMutex → e = .finishReturn e.actor) := by
  cases step with
  | finishUnlock t here | freeCond t here =>
      refine ⟨rfl, fun last => ?_⟩
      rw [Event.actor, here] at last
      cases last
  | freeMutex t here => exact ⟨rfl, fun _ => rfl⟩
  | acquire t there =>
      cases here : s.pc t <;> rw [here] at there <;> cases there <;>
        simp [Event.actor, here, Pc.finishing] at finishing
  | spurious t there =>
      cases here : s.pc t <;> rw [here] at there <;> cases there
      simp [Event.actor, here, Pc.finishing] at finishing
  | doneCall t here | addCall t _ here | waitCall t _ here | doneCount t here
  | doneUnlock t here | addCount t here | addUnlock t here | waitSleep t here
  | waitOver t here | waitUnlock t here =>
      rw [Event.actor, here] at finishing
      cases finishing

omit [Fintype τ] in
/-- An idle thread is only moved by its own calls. -/
theorem step_idle_kept (step : Step s e s') {u : τ} (other : u ≠ e.actor)
    (idle : s.pc u = .idle) : s'.pc u = .idle := by
  have blind (pc : Pc) : (pc.wake == .idle) = (pc == .idle) := by
    cases pc <;> rfl
  have kept := step_others (f := (· == .idle)) blind step other
  simpa [idle] using kept

/-- The condition variable goes first, and the mutex right behind it. -/
theorem step_cond (used : Used main count (trace ++ [e])) (inv : Inv main count trace s)
    (step : Step s e s') (gone : s'.cond = false) :
    s'.pc main = .freeMutex ∨ .finishReturn main ∈ trace ++ [e] := by
  cases before : s.cond with
  | true =>
      cases step with
      | freeCond t here =>
          have own := inv.is_main here rfl
          subst own
          exact .inl (Function.update_self _ _ _)
      | _ => simp [before] at gone
  | false =>
      rcases inv.cond before with here | returned
      · by_cases own : e.actor = main
        · subst own
          have last := (step_finishing step (by rw [here]; rfl)).2 here
          exact .inr (by rw [← last]; simp)
        · have blind (pc : Pc) : (pc.wake == .freeMutex) = (pc == .freeMutex) := by
            cases pc <;> rfl
          have same := step_others (f := (· == .freeMutex)) blind step (fun eq => own eq.symm)
          exact .inl (by simpa [here] using same)
      · exact .inr (List.mem_append_left _ returned)

theorem step_mutex (inv : Inv main count trace s) (step : Step s e s')
    (gone : s'.mutex = false) : .finishReturn main ∈ trace ++ [e] := by
  cases before : s.mutex with
  | false => exact List.mem_append_left _ (inv.mutex before)
  | true =>
      cases step with
      | freeMutex t here =>
          have own := inv.is_main here rfl
          subst own
          simp
      | _ => simp [before] at gone

omit [DecidableEq τ] in
/-- At zero no done is under way that has not been counted. -/
theorem Inv.settled (inv : Inv main count trace s) (zero : s.wg.count = 0) :
    count.toNat + added trace ≤ doneCalls trace := by
  have counts := inv.count
  have uncounted := inv.uncounted
  rw [zero, UInt32.toNat_zero] at counts
  omega

theorem idle_of_settled {pc : Pc} (works : pc.works = true) (free : pc.holds = false)
    (settled : pc.uncounted = false) : pc = .idle := by
  cases pc with
  | idle => rfl
  | doneLock => cases settled
  | doneCount | doneUnlock => cases free
  | _ => cases works

omit [DecidableEq τ] in
/-- A waiter that holds the mutex and sees zero is alone with the wait group. -/
theorem idle_of_zero (used : Used main count trace) (inv : Inv main count trace s)
    (held : (s.pc main).holds = true) (zero : s.wg.count = 0) {t : τ} (other : t ≠ main) :
    s.pc t = .idle := by
  have counts := inv.count
  have uncounted := inv.uncounted
  have covered := used.covered trace (List.prefix_refl _)
  rw [zero, UInt32.toNat_zero] at counts
  have none_pending : population Pc.uncounted s.pc = 0 := by omega
  have free := inv.owner.alone held other
  have settled := population_eq_zero.mp none_pending t
  exact idle_of_settled (inv.works t other) free settled

/-- Once the wait of the finish is over, nobody else comes back. -/
theorem step_past (used : Used main count (trace ++ [e])) (inv : Inv main count trace s)
    (step : Step s e s')
    (past : (s.pc main).finishing = true ∨ s.cond = false ∨ s.mutex = false) :
    s'.wg.count = 0 ∧ ∀ t, t ≠ main → s'.pc t = .idle := by
  obtain ⟨zero, idle⟩ := inv.past past
  by_cases own : e.actor = main
  · have finishing : (s.pc main).finishing = true := by
      rcases past with here | gone | gone
      · exact here
      · rcases inv.cond gone with here | returned
        · rw [here]
          rfl
        · exact absurd own (used.finished returned)
      · exact absurd own (used.finished (inv.mutex gone))
    refine ⟨?_, fun t other => ?_⟩
    · rw [(step_finishing step (own ▸ finishing)).1]
      exact zero
    · exact step_idle_kept step (own ▸ other) (idle t other)
  · rcases step_idle step (idle e.actor own) with calls | called
    · exact absurd (used.owned e (by simp) calls) own
    · have covered := used.covered _ (List.prefix_refl _)
      have settled := inv.settled zero
      rw [doneCalls_append, added_append, called] at covered
      have one_call : doneCalls [Event.doneCall e.actor] = 1 := rfl
      have none_added : added [Event.doneCall e.actor] = 0 := rfl
      omega

omit [Fintype τ] in
/-- The wait of a finish ends with a test that sees zero. -/
theorem step_to_finishing (step : Step s e s') (before : (s.pc e.actor).finishing = false)
    (after : (s'.pc e.actor).finishing = true) :
    (s.pc e.actor).holds = true ∧ s.wg.count = 0 ∧ s'.wg = s.wg := by
  cases step with
  | waitOver t here none_left => exact ⟨by rw [Event.actor, here]; rfl, none_left, rfl⟩
  | acquire t here =>
      simp [Event.actor, (entered_same here).2.2.2.2] at after
  | spurious t here =>
      cases there : s.pc t <;> rw [there] at here <;> cases here
      simp [Event.actor, Condition.notify, there, bcast, Pc.wake, Pc.finishing] at after
  | finishUnlock t here | freeCond t here | freeMutex t here =>
      rw [Event.actor, here] at before
      cases before
  | doneCall t | addCall t | waitCall t | doneCount t | doneUnlock t | addCount t | addUnlock t
  | waitSleep t | waitUnlock t =>
      simp [Event.actor, Pc.finishing] at after

omit [Fintype τ] in
/-- Only a teardown destroys. -/
theorem step_alive (step : Step s e s') (before : (s.pc e.actor).finishing = false) :
    s'.cond = s.cond ∧ s'.mutex = s.mutex := by
  cases step with
  | freeCond t here | freeMutex t here =>
      rw [Event.actor, here] at before
      cases before
  | _ => exact ⟨rfl, rfl⟩

theorem wake_finishing (pc : Pc) : pc.wake.finishing = pc.finishing := by
  cases pc <;> rfl

theorem finishing_works {pc : Pc} (finishing : pc.finishing = true) : pc.works = false := by
  cases pc <;> simp_all [Pc.works, Pc.finishing]

theorem step_returned (used : Used main count (trace ++ [e])) (inv : Inv main count trace s)
    (step : Step s e s') (returned : .finishReturn main ∈ trace ++ [e]) :
    s'.pc main = .idle ∧ s'.mutex = false := by
  rcases List.mem_append.mp returned with earlier | now
  · obtain ⟨idle, gone⟩ := inv.returned earlier
    refine ⟨step_idle_kept step (used.finished earlier).symm idle, ?_⟩
    cases step with
    | freeMutex t here => rfl
    | _ => exact gone
  · rw [← List.mem_singleton.mp now] at step
    cases step with
    | freeMutex _ here => exact ⟨Function.update_self _ _ _, rfl⟩

theorem step_inv (used : Used main count (trace ++ [e])) (inv : Inv main count trace s)
    (step : Step s e s') : Inv main count (trace ++ [e]) s' where
  owner := step_owner inv.owner step
  uncounted := step_uncounted step inv.uncounted
  count := step_count used inv step
  asleep := step_asleep used inv step
  works := step_works used inv step
  cond := step_cond used inv step
  mutex := step_mutex inv step
  returned := step_returned used inv step
  past after := by
    by_cases before : (s.pc main).finishing = true ∨ s.cond = false ∨ s.mutex = false
    · exact step_past used inv step before
    · simp only [not_or, Bool.not_eq_true, Bool.not_eq_false] at before
      have quiet : (s.pc e.actor).finishing = false := by
        cases finishing : (s.pc e.actor).finishing with
        | false => rfl
        | true =>
            have own := inv.is_main rfl (finishing_works finishing)
            rw [own, before.1] at finishing
            cases finishing
      obtain ⟨cond, mutex⟩ := step_alive step quiet
      rw [cond, mutex, before.2.1, before.2.2] at after
      have finishing : (s'.pc main).finishing = true := by simpa using after
      have own : e.actor = main := by
        by_contra other
        rw [step_others wake_finishing step (fun eq => other eq.symm), before.1] at finishing
        cases finishing
      subst own
      obtain ⟨held, zero, same⟩ := step_to_finishing step quiet finishing
      have idle (t : τ) (other : t ≠ e.actor) := idle_of_zero used.before inv held zero other
      exact ⟨same ▸ zero, fun t other => step_idle_kept step other (idle t other)⟩

theorem run_inv (run : Run (system τ count) trace s) :
    Used main count trace → Inv main count trace s := by
  refine Run.invariant (fun trace s => Used main count trace → Inv main count trace s) ?_ ?_ run
  · rintro s rfl _
    constructor
    · intro t
      constructor <;> intro held <;> cases held
    · simp [population, Pc.uncounted, counted, doneCalls]
    · rfl
    · intro t sleeps
      cases sleeps
    · exact fun t _ => rfl
    · intro gone
      cases gone
    · intro gone
      cases gone
    · intro returned
      cases returned
    · intro past
      simp [Pc.finishing] at past
  · intro trace s e s' inv step used
    exact step_inv used (inv used.before) step

/-- In every run of a wait group that is used as it is meant to be: once the wait of
`cpr_waitgroup_finish` is over, and for ever after, all dones have been called and
every other thread is out of the wait group; the condition variable is destroyed with
the mutex free, and the mutex when nobody is left; and nobody sleeps on a count of zero. -/
theorem waitgroup_finish_safe (run : Run (system τ count) trace s)
    (used : Used main count trace) :
    ((s.pc main).finishing = true ∨ .finishReturn main ∈ trace →
      doneCalls trace = count.toNat + added trace ∧ ∀ t, t ≠ main → s.pc t = .idle) ∧
    (s.cond = false → s.lock = none ∧
      ∀ t, s.pc t = .idle ∨ t = main ∧ s.pc t = .freeMutex) ∧
    (s.mutex = false → ∀ t, s.pc t = .idle) ∧
    (∀ t, (s.pc t).sleeps = true → s.wg.count ≠ 0) := by
  have inv := run_inv run used
  have stands (gone : s.cond = false) (t : τ) :
      s.pc t = .idle ∨ t = main ∧ s.pc t = .freeMutex := by
    by_cases own : t = main
    · subst own
      exact (inv.cond gone).elim (fun here => .inr ⟨rfl, here⟩)
        fun returned => .inl (inv.returned returned).1
    · exact .inl ((inv.past (.inr (.inl gone))).2 t own)
  refine ⟨fun past => ?_, fun gone => ⟨?_, stands gone⟩, fun gone t => ?_, inv.asleep⟩
  · have past : (s.pc main).finishing = true ∨ s.cond = false ∨ s.mutex = false :=
      past.imp_right fun returned => .inr (inv.returned returned).2
    obtain ⟨zero, idle⟩ := inv.past past
    have covered := used.covered trace (List.prefix_refl _)
    exact ⟨Nat.le_antisymm covered (inv.settled zero), idle⟩
  · cases held : s.lock with
    | none => rfl
    | some t =>
        have holds := (inv.owner t).mpr held
        rcases stands gone t with here | ⟨_, here⟩ <;> rw [here] at holds <;> cases holds
  · by_cases own : t = main
    · rw [own]
      exact (inv.returned (inv.mutex gone)).1
    · exact (inv.past (.inr (.inr gone))).2 t own

/-- The owner of a group of one sleeps until its worker is done, and tears it down. -/
def teardown : List (Event Bool) :=
  [.waitCall true true, .silent true, .silent true, .doneCall false, .silent false,
    .counted false, .silent false, .silent true, .silent true, .silent true, .silent true,
    .finishReturn true]

theorem teardown_used : Used true 1 teardown where
  small := by decide
  covered before earlier := by
    have each : ∀ k < 13, doneCalls (teardown.take k) ≤
        (1 : UInt32).toNat + added (teardown.take k) := by decide
    rw [List.prefix_iff_eq_take.mp earlier]
    exact each _ (Nat.lt_succ_of_le earlier.length_le)
  owned := by decide
  last before after split returned e member := by
    have each : ∀ k < 13, .finishReturn true ∈ teardown.take k →
        ∀ e ∈ teardown.drop k, e.actor ≠ true := by decide
    have length : before.length < 13 := by
      have whole := congrArg List.length split
      rw [List.length_append] at whole
      have twelve : teardown.length = 12 := rfl
      omega
    have parted := each before.length length
    rw [split, List.take_left, List.drop_left] at parted
    exact parted returned e member

theorem waitgroup_finish_safe_one :
    ∃ s : State Bool, Run (system Bool 1) teardown s ∧ s.mutex = false ∧ ∀ t, s.pc t = .idle := by
  have start : Run (system Bool 1) [] ⟨waitgroupInit 1, true, true, none, fun _ => .idle⟩ :=
    .start rfl
  have tested := (start.next (Step.waitCall true true rfl)).next (.acquire true rfl rfl)
  have asleep := tested.next (.waitSleep true rfl (by decide))
  have called := (asleep.next (.doneCall false rfl)).next (.acquire false rfl rfl)
  have done := (called.next (.doneCount false rfl)).next (.doneUnlock false rfl)
  have past := (done.next (.acquire true rfl rfl)).next (.waitOver true rfl rfl)
  have unlocked := past.next (.finishUnlock true rfl)
  have torn := (unlocked.next (.freeCond true rfl)).next (.freeMutex true rfl)
  exact ⟨_, torn, rfl, (waitgroup_finish_safe torn teardown_used).2.2.1 rfl⟩

end CprFormal.Thread.WaitgroupFinish
