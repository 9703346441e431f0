import Mathlib.Data.Fintype.Basic
import CprFormal.Thread.Condlock

/-!
# Exclusion by the condition lock

A writer keeps the mutex from `cpr_condlock_modify` to `cpr_condlock_commit`, and
it only gets there when nobody shares the lock.  As every other critical section
needs the mutex, nobody can enter before the commit.
-/

namespace CprFormal.Thread.CondlockExclusion

open Function (update)
open CprFormal.Library.Monitor CprFormal.Library.Population CprFormal.Library.Transition
open CprFormal.Thread.Condlock

variable {τ : Type} [DecidableEq τ]

/-- While a writer holds the mutex nobody shares the lock. -/
def Unshared (s : State τ) : Prop := s.mtx ≠ none → s.lock.sharing = 0

omit [DecidableEq τ] in
/-- The mutex is only kept behind a test that found nobody sharing. -/
theorem modifyLoop_unshared (t : τ) (lock : CondlockT)
    (held : mtxAfter t (modifyLoop lock).2 ≠ none) : (modifyLoop lock).1.sharing = 0 := by
  unfold modifyLoop at held ⊢
  split at held
  · exact absurd rfl held
  · rename_i alone
    rw [if_neg alone]
    exact Decidable.not_not.mp alone

theorem step_unshared {s s' : State τ} {e : Event τ} (unshared : Unshared s)
    (step : Step s e s') : Unshared s' := by
  cases step with
  | access t here free => exact fun held => absurd free held
  | accessResume t here free => exact fun held => absurd free held
  | modify t here free => exact modifyLoop_unshared t s.lock
  | modifyResume t here free => exact modifyLoop_unshared t s.lock.writerBack
  | release t here free delivers => exact fun held => absurd free held
  | commit t here delivers => exact fun held => absurd rfl held
  | spurious t here => exact unshared

theorem accessLoop_admits {lock : CondlockT} (admitted : (accessLoop lock).2 = .reading) :
    lock.pending = 0 := by
  unfold accessLoop at admitted
  split at admitted
  · cases admitted
  · rename_i none_pending
    exact Decidable.not_not.mp none_pending

theorem modifyLoop_admits (lock : CondlockT) : (modifyLoop lock).2 ≠ .reading := by
  unfold modifyLoop
  split
  · exact Pc.noConfusion
  · exact Pc.noConfusion

omit [DecidableEq τ] in
/-- A wake-up admits no reader. -/
theorem wakes_reading {pc pc' : τ → Pc} (wakes : bcast.Wakes pc pc') {t : τ}
    (reading : pc' t = .reading) : pc t = .reading := by
  rcases wakes t with same | ⟨_, woken⟩
  · rw [← same, reading]
  · rw [woken] at reading
    cases hpc : pc t <;> rw [hpc] at reading <;> cases reading

/-- The thread that becomes a reader in a critical section is the one that makes it. -/
theorem update_reading {pc pc' : τ → Pc} (wakes : bcast.Wakes pc pc') {t u : τ} {next : Pc}
    (outside : pc u ≠ .reading) (reading : update pc' t next u = .reading) :
    next = .reading := by
  by_cases own : u = t
  · subst own
    rwa [Function.update_self] at reading
  · rw [Function.update_of_ne own] at reading
    exact absurd (wakes_reading wakes reading) outside

/-- A reader is admitted only while no writer is pending. -/
theorem step_admits {s s' : State τ} {e : Event τ} (step : Step s e s') {u : τ}
    (outside : s.pc u ≠ .reading) (reading : s'.pc u = .reading) : s.lock.pending = 0 := by
  cases step with
  | access t here free =>
      exact accessLoop_admits (update_reading (.refl _ _) outside reading)
  | accessResume t here free =>
      have admitted : s.lock.readerBack.pending = 0 :=
        accessLoop_admits (update_reading (.refl _ _) outside reading)
      exact admitted
  | modify t here free =>
      exact absurd (update_reading (.refl _ _) outside reading) (modifyLoop_admits _)
  | modifyResume t here free =>
      exact absurd (update_reading (.refl _ _) outside reading) (modifyLoop_admits _)
  | release t here free delivers =>
      cases update_reading delivers.wakes outside reading
  | commit t here delivers =>
      cases update_reading delivers.wakes outside reading
  | spurious t here =>
      exact absurd (wakes_reading (bcast.wakes_notify s.pc here) reading) outside

variable [Fintype τ]

/-- What every run maintains. -/
structure Inv (s : State τ) : Prop where
  counts : Counts s
  unshared : Unshared s

theorem run_inv {trace : List (Event τ)} {s : State τ} (run : Run (system τ) trace s) :
    Inv s := by
  refine Run.invariant (fun _ s => Inv s) ?_ ?_ run
  · rintro s rfl
    exact ⟨initial_counts, fun held => absurd rfl held⟩
  · intro _ _ _ _ inv step
    exact ⟨step_counts inv.counts step, step_unshared inv.unshared step⟩

/-- In every run there is at most one writer and no reader besides it; each counter
is the number of threads it is about, so it is positive whenever such a thread
counts it down; and a reader is admitted only while no writer is pending. -/
theorem condlock_exclusion {trace : List (Event τ)} {s : State τ}
    (run : Run (system τ) trace s) :
    (∀ t u, s.pc t = .writing → s.pc u = .writing → t = u) ∧
    (∀ t u, s.pc t = .writing → s.pc u ≠ .reading) ∧
    s.lock.sharing = population Pc.reads s.pc ∧
    s.lock.waiting = population Pc.readWaits s.pc ∧
    s.lock.pending = population Pc.writeWaits s.pc ∧
    (∀ t, (s.pc t = .reading → 0 < s.lock.sharing) ∧
      (s.pc t = .readAwake → 0 < s.lock.waiting) ∧
      (s.pc t = .writeAwake → 0 < s.lock.pending)) ∧
    (∀ e s' u, Step s e s' → s.pc u ≠ .reading → s'.pc u = .reading →
      s.lock.pending = 0) := by
  obtain ⟨counts, unshared⟩ := run_inv run
  refine ⟨?_, ?_, counts.sharing, counts.waiting, counts.pending, ?_, ?_⟩
  · intro t u first second
    have owners := ((counts.owner t).mp first).symm.trans ((counts.owner u).mp second)
    exact Option.some.inj owners
  · intro t u writes reads
    have held := (counts.owner t).mp writes
    have none_shares := unshared (by rw [held]; exact Option.some_ne_none t)
    have shares := counts.pos.1 (show (s.pc u).reads = true by rw [reads]; rfl)
    rw [none_shares] at shares
    exact Nat.lt_irrefl 0 shares
  · intro t
    refine ⟨fun here => ?_, fun here => ?_, fun here => ?_⟩
    · exact counts.pos.1 (show (s.pc t).reads = true by rw [here]; rfl)
    · exact counts.pos.2.1 (show (s.pc t).readWaits = true by rw [here]; rfl)
    · exact counts.pos.2.2 (show (s.pc t).writeWaits = true by rw [here]; rfl)
  · intro e s' u step outside reading
    exact step_admits step outside reading

/-- A writer waits for a reader, takes over and holds the lock alone. -/
theorem condlock_exclusion_writer :
    ∃ (trace : List (Event (Fin 2))) (s : State (Fin 2)), Run (system (Fin 2)) trace s ∧
      s.pc 1 = .writing ∧ (∀ u, s.pc u ≠ .reading) ∧ s.lock.sharing = population Pc.reads s.pc := by
  have start : Run (system (Fin 2)) [] initial := .start rfl
  have shared := (start.next (Step.access 0 rfl rfl)).next (.modify 1 rfl rfl)
  have freed := shared.next (.release 0 rfl rfl (.signal (.one 1 rfl)))
  have writing := freed.next (.modifyResume 1 rfl rfl)
  have holds := condlock_exclusion writing
  exact ⟨_, _, writing, rfl, fun u => holds.2.1 1 u rfl, holds.2.2.1⟩

end CprFormal.Thread.CondlockExclusion
