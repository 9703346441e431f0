import CprFormal.Library.Guarded
import CprFormal.Thread.CondlockExclusion
import CprFormal.Thread.Semaphore

/-!
# What the locks of `thread.c` are for

Threads that read shared data between `cor_condlock_access` and `cpr_condlock_release`, and
read and write it between `cpr_condlock_modify` and `cpr_condlock_commit`, see each other's
sections as if they came one behind the other.  So do threads between the acquire and the
release of a semaphore with a single slot.
-/

namespace CprFormal.Thread.GuardedData

open CprFormal.Library.Guarded CprFormal.Library.Monitor CprFormal.Library.Population
open CprFormal.Library.Transition

variable {τ : Type} [DecidableEq τ]

/-! ## The condition lock -/

section Condlock

open CprFormal.Thread.Condlock CprFormal.Thread.CondlockExclusion

/-- The thread that makes a step. -/
def condlockActor : Condlock.Event τ → τ
  | .access t | .modify t | .resume t | .release t _ _ | .commit t _ _ | .spurious t => t

def condlockRole : Condlock.Pc → Role
  | .reading => .reads
  | .writing => .writes
  | _ => .outside

def condlock (τ : Type) [DecidableEq τ] : Lock (Condlock.State τ) (Condlock.Event τ) τ where
  sys := Condlock.system τ
  actor := condlockActor
  role s t := condlockRole (s.pc t)

theorem condlockRole_wake (pc : Condlock.Pc) (_ : bcast.asleep pc = true) :
    condlockRole (bcast.wake pc) = condlockRole pc := by
  cases pc <;> rfl

theorem condlockRole_asleep {pc : Condlock.Pc} (asleep : bcast.asleep pc = true) :
    condlockRole pc = .outside := by
  cases pc <;> first | rfl | cases asleep

omit [DecidableEq τ] in
theorem condlock_wakes {pc pc' : τ → Condlock.Pc} (wakes : bcast.Wakes pc pc') (t : τ) :
    condlockRole (pc' t) = condlockRole (pc t) :=
  wakes.congr condlockRole condlockRole_wake t

theorem condlock_others {s s' : Condlock.State τ} {e : Condlock.Event τ} {t : τ}
    (step : Condlock.Step s e s') (other : t ≠ condlockActor e) :
    condlockRole (s'.pc t) = condlockRole (s.pc t) := by
  cases step with
  | access u here free => exact congrArg condlockRole (Function.update_of_ne other ..)
  | accessResume u here free => exact congrArg condlockRole (Function.update_of_ne other ..)
  | modify u here free => exact congrArg condlockRole (Function.update_of_ne other ..)
  | modifyResume u here free => exact congrArg condlockRole (Function.update_of_ne other ..)
  | release u here free delivers =>
      exact (congrArg condlockRole (Function.update_of_ne other ..)).trans
        (condlock_wakes delivers.wakes t)
  | commit u here delivers =>
      exact (congrArg condlockRole (Function.update_of_ne other ..)).trans
        (condlock_wakes delivers.wakes t)
  | spurious u here => exact condlock_wakes (bcast.wakes_notify s.pc here) t

theorem condlock_through {s s' : Condlock.State τ} {e : Condlock.Event τ}
    (step : Condlock.Step s e s') :
    condlockRole (s.pc (condlockActor e)) = .outside ∨
      condlockRole (s'.pc (condlockActor e)) = .outside := by
  have gone (t : τ) (pc : τ → Condlock.Pc) :
      condlockRole (Function.update pc t .idle t) = .outside := by
    rw [Function.update_self]
    rfl
  cases step with
  | access t here free => exact .inl (congrArg condlockRole here)
  | accessResume t here free => exact .inl (congrArg condlockRole here)
  | modify t here free => exact .inl (congrArg condlockRole here)
  | modifyResume t here free => exact .inl (congrArg condlockRole here)
  | release t here free delivers => exact .inr (gone t _)
  | commit t here delivers => exact .inr (gone t _)
  | spurious t here => exact .inl (condlockRole_asleep here)

variable [Fintype τ]

omit [DecidableEq τ] in
/-- A writer owns the mutex, and then nobody shares the lock. -/
theorem condlock_alone {s : Condlock.State τ} (inv : CondlockExclusion.Inv s) {t u : τ}
    (writes : condlockRole (s.pc t) = .writes) (inside : condlockRole (s.pc u) ≠ .outside) :
    u = t := by
  have writing : s.pc t = .writing := by
    cases here : s.pc t <;> rw [here] at writes <;> first | rfl | cases writes
  have held := (inv.counts.owner t).mp writing
  cases here : s.pc u with
  | writing => exact Option.some.inj (((inv.counts.owner u).mp here).symm.trans held)
  | reading =>
      have shares := inv.counts.pos.1 (show (s.pc u).reads = true by rw [here]; rfl)
      have nobody := inv.unshared (by rw [held]; exact Option.some_ne_none t)
      omega
  | _ => exact absurd (congrArg condlockRole here) inside

theorem condlock_excludes : (condlock τ).Excludes CondlockExclusion.Inv where
  init := by
    rintro s rfl
    exact ⟨CondlockExclusion.run_inv (.start rfl), fun _ => rfl⟩
  step _ _ _ inv step :=
    ⟨step_counts inv.counts step, step_unshared inv.unshared step⟩
  alone _ _ _ inv := condlock_alone inv
  others _ _ _ _ := condlock_others
  through _ _ _ := condlock_through

/-- Whatever the threads read and write inside a condition lock, the sections that have
ended are a serial run that has left some contents; every reader inside reads these and
nothing else, a writer inside has started from them, and between writers they are in the
cells. -/
theorem condlock_serializable {κ α : Type} [DecidableEq κ] {start : κ → α}
    {trace : List (Event (Condlock.Event τ) τ κ α)} {g : State (Condlock.State τ) τ κ α}
    (run : Run (guarded (condlock τ) start) trace g) :
    ∃ left, Sections (condlock τ) start g left :=
  run_sections condlock_excludes run

/-- A reader keeps a writer out between its two reads. -/
theorem condlock_serializable_waits :
    ∃ g : State (Condlock.State (Fin 2)) (Fin 2) Bool Nat,
      g.ended.length = 1 ∧ (g.present 1).length = 1 ∧
      ∃ left, Sections (condlock (Fin 2)) (fun _ => 0) g left := by
  have empty : Run (guarded (condlock (Fin 2)) fun _ : Bool => 0) []
      ⟨Condlock.initial, fun _ => 0, fun _ => [], []⟩ := .start ⟨rfl, rfl, fun _ => rfl, rfl⟩
  have reader := (empty.next (.lock (.access 0 rfl rfl))).next (.read 0 true Role.noConfusion)
  have waits := (reader.next (.lock (.modify 1 rfl rfl))).next (.read 0 false Role.noConfusion)
  have leaves := waits.next (.lock (.release 0 rfl rfl (.signal (.one 1 rfl))))
  have writes := (leaves.next (.lock (.modifyResume 1 rfl rfl))).next (.write 1 true 7 rfl)
  exact ⟨_, rfl, rfl, condlock_serializable writes⟩

end Condlock

/-! ## A semaphore with one slot -/

section Semaphore

open CprFormal.Thread.Semaphore

def semaphoreActor : Semaphore.Event τ → τ
  | .acquire t | .resume t | .release t | .spurious t => t

def semaphoreRole : Semaphore.Pc → Role
  | .holding => .writes
  | _ => .outside

def semaphore (τ : Type) [DecidableEq τ] : Lock (Semaphore.State τ) (Semaphore.Event τ) τ where
  sys := Semaphore.system τ 1
  actor := semaphoreActor
  role s t := semaphoreRole (s.pc t)

theorem semaphoreRole_wake (pc : Semaphore.Pc) (_ : cond.asleep pc = true) :
    semaphoreRole (cond.wake pc) = semaphoreRole pc := by
  cases pc <;> rfl

theorem semaphoreRole_asleep {pc : Semaphore.Pc} (asleep : cond.asleep pc = true) :
    semaphoreRole pc = .outside := by
  cases pc <;> first | rfl | cases asleep

theorem semaphore_others {s s' : Semaphore.State τ} {e : Semaphore.Event τ} {t : τ}
    (step : Semaphore.Step s e s') (other : t ≠ semaphoreActor e) :
    semaphoreRole (s'.pc t) = semaphoreRole (s.pc t) := by
  cases step with
  | acquire u here => exact congrArg semaphoreRole (Function.update_of_ne other ..)
  | resume u here => exact congrArg semaphoreRole (Function.update_of_ne other ..)
  | release u here signal =>
      exact (congrArg semaphoreRole (Function.update_of_ne other ..)).trans
        (signal.wakes.congr semaphoreRole semaphoreRole_wake t)
  | spurious u here =>
      exact (cond.wakes_notify s.pc here).congr semaphoreRole semaphoreRole_wake t

theorem semaphore_through {s s' : Semaphore.State τ} {e : Semaphore.Event τ}
    (step : Semaphore.Step s e s') :
    semaphoreRole (s.pc (semaphoreActor e)) = .outside ∨
      semaphoreRole (s'.pc (semaphoreActor e)) = .outside := by
  cases step with
  | acquire t here => exact .inl (congrArg semaphoreRole here)
  | resume t here => exact .inl (congrArg semaphoreRole here)
  | release t here signal =>
      have gone (pc : τ → Semaphore.Pc) :
          semaphoreRole (Function.update pc t .idle t) = .outside := by
        rw [Function.update_self]
        rfl
      exact .inr (gone _)
  | spurious t here => exact .inl (semaphoreRole_asleep here)

variable [Fintype τ]

/-- Two holders would use two slots. -/
theorem semaphore_alone {s : Semaphore.State τ} (inv : Semaphore.Inv 1 s) {t u : τ}
    (first : semaphoreRole (s.pc t) ≠ .outside) (second : semaphoreRole (s.pc u) ≠ .outside) :
    u = t := by
  have holds {v : τ} (inside : semaphoreRole (s.pc v) ≠ .outside) : s.pc v = .holding := by
    cases here : s.pc v <;> rw [here] at inside <;> first | rfl | exact absurd rfl inside
  by_contra other
  have moved := population_update Semaphore.Pc.holds s.pc t .idle
  have left : 0 < population Semaphore.Pc.holds (Function.update s.pc t .idle) := by
    refine population_pos.mpr ⟨u, ?_⟩
    rw [Function.update_of_ne other, holds second]
    rfl
  rw [holds first] at moved
  have counted : Semaphore.Pc.holding.holds.toNat = 1 ∧ Semaphore.Pc.idle.holds.toNat = 0 :=
    ⟨rfl, rfl⟩
  have bound := inv.bound
  rw [inv.used, inv.count] at bound
  omega

theorem semaphore_excludes : (semaphore τ).Excludes (Semaphore.Inv 1) where
  init := by
    rintro s rfl
    exact ⟨Semaphore.run_inv (.start rfl), fun _ => rfl⟩
  step _ _ _ inv step := Semaphore.step_inv inv step
  alone _ _ _ inv writes := semaphore_alone inv fun away => Role.noConfusion (writes.symm.trans away)
  others _ _ _ _ := semaphore_others
  through _ _ _ := semaphore_through

/-- A semaphore with one slot makes the sections of all threads serial. -/
theorem semaphore_serializable {κ α : Type} [DecidableEq κ] {start : κ → α}
    {trace : List (Event (Semaphore.Event τ) τ κ α)} {g : State (Semaphore.State τ) τ κ α}
    (run : Run (guarded (semaphore τ) start) trace g) :
    ∃ left, Sections (semaphore τ) start g left :=
  run_sections semaphore_excludes run

/-- The second thread sleeps until the first one has written twice. -/
theorem semaphore_serializable_waits :
    ∃ g : State (Semaphore.State (Fin 2)) (Fin 2) Bool Nat,
      g.ended.length = 1 ∧ (g.present 1).length = 1 ∧
      ∃ left, Sections (semaphore (Fin 2)) (fun _ => 0) g left := by
  have empty : Run (guarded (semaphore (Fin 2)) fun _ : Bool => 0) []
      ⟨⟨Semaphore.semaphoreInit 1, fun _ => .idle⟩, fun _ => 0, fun _ => [], []⟩ :=
    .start ⟨rfl, rfl, fun _ => rfl, rfl⟩
  have first := (empty.next (.lock (.acquire 0 rfl))).next (.write 0 true 3 rfl)
  have waits := (first.next (.lock (.acquire 1 rfl))).next (.write 0 false 4 rfl)
  have leaves := waits.next (.lock (.release 0 rfl ⟨some 1, .one 1 rfl⟩))
  have reads := (leaves.next (.lock (.resume 1 rfl))).next (.read 1 true Role.noConfusion)
  exact ⟨_, rfl, rfl, semaphore_serializable reads⟩

end Semaphore

end CprFormal.Thread.GuardedData
