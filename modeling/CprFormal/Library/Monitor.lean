import Mathlib.Logic.Function.Basic

/-!
# Condition variables over program points

A monitor's threads are a map from thread names to program points.  A condition
variable is known by the program points at which a thread sleeps on it and by
the point such a thread continues from once it has been notified.
-/

namespace CprFormal.Library.Monitor

open Function (update)

/-- A condition variable: who sleeps on it, and where a sleeper wakes. -/
structure Condition (π : Type) where
  asleep : π → Bool
  wake : π → π

variable {τ π : Type}

namespace Condition

/-- A broadcast notifies every sleeper. -/
def broadcast (c : Condition π) (pc : τ → π) : τ → π :=
  fun t => if c.asleep (pc t) then c.wake (pc t) else pc t

/-- Some sleepers were notified and nothing else happened. -/
def Wakes (c : Condition π) (pc pc' : τ → π) : Prop :=
  ∀ t, pc' t = pc t ∨ (c.asleep (pc t) = true ∧ pc' t = c.wake (pc t))

theorem Wakes.refl (c : Condition π) (pc : τ → π) : c.Wakes pc pc :=
  fun _ => .inl rfl

theorem wakes_broadcast (c : Condition π) (pc : τ → π) :
    c.Wakes pc (c.broadcast pc) := by
  intro t
  unfold broadcast
  split
  · exact .inr ⟨by assumption, rfl⟩
  · exact .inl rfl

/-- After a broadcast nobody sleeps on the condition, provided that a notified
thread is not asleep any more. -/
theorem broadcast_asleep (c : Condition π) (awake : ∀ p, c.asleep (c.wake p) = false)
    (pc : τ → π) (t : τ) : c.asleep (c.broadcast pc t) = false := by
  unfold broadcast
  cases sleeps : c.asleep (pc t) with
  | true => exact awake _
  | false => exact sleeps

/-- What a wake-up cannot change is the same before and after it. -/
theorem Wakes.congr {c : Condition π} {pc pc' : τ → π} {β : Type} (f : π → β)
    (blind : ∀ p, c.asleep p = true → f (c.wake p) = f p)
    (wakes : c.Wakes pc pc') (t : τ) : f (pc' t) = f (pc t) := by
  rcases wakes t with same | ⟨sleeps, woken⟩
  · rw [same]
  · rw [woken, blind _ sleeps]

variable [DecidableEq τ]

/-- The thread `t` is notified. -/
def notify (c : Condition π) (pc : τ → π) (t : τ) : τ → π :=
  update pc t (c.wake (pc t))

/-- A signal notifies an arbitrary sleeper, if there is one. -/
inductive SignalTo (c : Condition π) (pc : τ → π) : Option τ → (τ → π) → Prop where
  | one (t : τ) : c.asleep (pc t) = true → SignalTo c pc (some t) (c.notify pc t)
  | nobody : (∀ t, c.asleep (pc t) = false) → SignalTo c pc none pc

/-- A signal, whoever it reaches. -/
def Signal (c : Condition π) (pc pc' : τ → π) : Prop :=
  ∃ target, c.SignalTo pc target pc'

theorem wakes_notify (c : Condition π) (pc : τ → π) {t : τ}
    (sleeps : c.asleep (pc t) = true) : c.Wakes pc (c.notify pc t) := by
  intro u
  by_cases same : u = t
  · subst same
    exact .inr ⟨sleeps, by simp [notify]⟩
  · exact .inl (by simp [notify, same])

theorem SignalTo.wakes {c : Condition π} {pc pc' : τ → π} {target : Option τ}
    (signal : c.SignalTo pc target pc') : c.Wakes pc pc' := by
  cases signal with
  | one t sleeps => exact c.wakes_notify pc sleeps
  | nobody _ => exact .refl c pc

theorem Signal.wakes {c : Condition π} {pc pc' : τ → π}
    (signal : c.Signal pc pc') : c.Wakes pc pc' := by
  obtain ⟨target, signal⟩ := signal
  exact signal.wakes

/-- `if (test) cnd_signal`, whoever the signal reaches. -/
def SignalIf (c : Condition π) (test : Bool) (pc pc' : τ → π) : Prop :=
  if test then c.Signal pc pc' else pc' = pc

theorem SignalIf.wakes {c : Condition π} {test : Bool} {pc pc' : τ → π}
    (signal : c.SignalIf test pc pc') : c.Wakes pc pc' := by
  unfold SignalIf at signal
  split at signal
  · exact signal.wakes
  · rw [signal]
    exact .refl c pc

end Condition

end CprFormal.Library.Monitor
