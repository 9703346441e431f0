import CprFormal.Library.Monitor

/-!
# Who owns a mutex

A mutex is known by its owner and by the program points at which a thread owns
it.  The four lemmas cover what a step can do: move its thread, wake others, take
the free mutex or give it up.
-/

namespace CprFormal.Library.Mutex

open Function (update)
open CprFormal.Library.Monitor

variable {τ π : Type}

/-- The threads at an owning point are exactly the owner. -/
def Owner (holds : π → Bool) (lock : Option τ) (pc : τ → π) : Prop :=
  ∀ t, holds (pc t) = true ↔ lock = some t

variable {holds : π → Bool} {lock : Option τ} {pc : τ → π}

/-- Nobody else stands at an owning point. -/
theorem Owner.alone (owner : Owner holds lock pc) {t u : τ} (held : holds (pc t) = true)
    (other : u ≠ t) : holds (pc u) = false := by
  cases both : holds (pc u) with
  | false => rfl
  | true =>
      have same := ((owner u).mp both).symm.trans ((owner t).mp held)
      exact absurd (Option.some.inj same) other

/-- A notified thread is not an owner. -/
theorem Owner.wakes {c : Condition π} {pc' : τ → π} (owner : Owner holds lock pc)
    (blind : ∀ p, c.asleep p = true → holds (c.wake p) = holds p) (wakes : c.Wakes pc pc') :
    Owner holds lock pc' := by
  intro t
  rw [wakes.congr holds blind t]
  exact owner t

variable [DecidableEq τ] {t : τ} {x : π}

/-- A thread moves without taking or giving the mutex. -/
theorem Owner.move (owner : Owner holds lock pc) (same : holds x = holds (pc t)) :
    Owner holds lock (update pc t x) := by
  intro u
  by_cases own : u = t
  · subst own
    rw [Function.update_self, same]
    exact owner u
  · rw [Function.update_of_ne own]
    exact owner u

/-- A thread takes the free mutex. -/
theorem Owner.enter (owner : Owner holds none pc) (taken : holds x = true) :
    Owner holds (some t) (update pc t x) := by
  intro u
  by_cases own : u = t
  · subst own
    simp [taken]
  · rw [Function.update_of_ne own, owner u]
    have apart : t ≠ u := fun same => own same.symm
    simp [apart]

/-- The owner gives the mutex up. -/
theorem Owner.leave (owner : Owner holds lock pc) (held : holds (pc t) = true)
    (given : holds x = false) : Owner holds none (update pc t x) := by
  intro u
  by_cases own : u = t
  · subst own
    simp [given]
  · rw [Function.update_of_ne own, owner.alone held own]
    simp

end CprFormal.Library.Mutex
