import Mathlib.Algebra.Order.BigOperators.Group.Finset
import CprFormal.Library.Monitor

/-!
# Counting threads

How many threads stand at a program point of some kind, and how that number
changes when one thread moves and others are woken.
-/

namespace CprFormal.Library.Population

open Function (update)
open CprFormal.Library.Monitor

variable {τ π : Type} [Fintype τ]

/-- The number of threads at a point that meets `p`. -/
def population (p : π → Bool) (pc : τ → π) : Nat :=
  ∑ t, (p (pc t)).toNat

theorem population_eq_zero {p : π → Bool} {pc : τ → π} :
    population p pc = 0 ↔ ∀ t, p (pc t) = false := by
  simp [population]

theorem population_pos {p : π → Bool} {pc : τ → π} :
    0 < population p pc ↔ ∃ t, p (pc t) = true := by
  rw [Nat.pos_iff_ne_zero, Ne, population_eq_zero, not_forall]
  simp

/-- No more threads than there are. -/
theorem population_le_card (p : π → Bool) (pc : τ → π) : population p pc ≤ Fintype.card τ := by
  rw [← Finset.card_univ, Finset.card_eq_sum_ones]
  exact Finset.sum_le_sum fun t _ => Bool.toNat_le _

/-- Wake-ups that `p` does not see keep the count. -/
theorem population_wakes {c : Condition π} {p : π → Bool} {pc pc' : τ → π}
    (blind : ∀ x, c.asleep x = true → p (c.wake x) = p x) (wakes : c.Wakes pc pc') :
    population p pc' = population p pc := by
  unfold population
  refine Finset.sum_congr rfl fun t _ => ?_
  rw [wakes.congr p blind t]

theorem population_mono {p q : π → Bool} {pc pc' : τ → π}
    (implies : ∀ t, p (pc t) = true → q (pc' t) = true) : population p pc ≤ population q pc' := by
  refine Finset.sum_le_sum fun t _ => ?_
  cases before : p (pc t) with
  | false => exact Nat.zero_le _
  | true => rw [implies t before]

/-- Wake-ups after which `p` still holds do not lower the count. -/
theorem population_wakes_le {c : Condition π} {p : π → Bool} {pc pc' : τ → π}
    (keeps : ∀ x, c.asleep x = true → p x = true → p (c.wake x) = true)
    (wakes : c.Wakes pc pc') : population p pc ≤ population p pc' := by
  refine population_mono fun t before => ?_
  rcases wakes t with same | ⟨sleeps, woken⟩
  · rwa [same]
  · rw [woken]
    exact keeps _ sleeps before

variable [DecidableEq τ]

/-- One thread moves. -/
theorem population_update (p : π → Bool) (pc : τ → π) (t : τ) (x : π) :
    population p (update pc t x) + (p (pc t)).toNat = population p pc + (p x).toNat := by
  have moved := Finset.add_sum_erase Finset.univ (fun u => (p (update pc t x u)).toNat)
    (Finset.mem_univ t)
  have stayed := Finset.add_sum_erase Finset.univ (fun u => (p (pc u)).toNat)
    (Finset.mem_univ t)
  have others : ∑ u ∈ Finset.univ.erase t, (p (update pc t x u)).toNat =
      ∑ u ∈ Finset.univ.erase t, (p (pc u)).toNat := by
    refine Finset.sum_congr rfl fun u member => ?_
    rw [Function.update_of_ne (Finset.ne_of_mem_erase member)]
  rw [others, Function.update_self] at moved
  unfold population
  omega

/-- One thread moves while others are woken. -/
theorem population_move {c : Condition π} {p : π → Bool} {pc pc' : τ → π}
    (blind : ∀ x, c.asleep x = true → p (c.wake x) = p x) (wakes : c.Wakes pc pc')
    (t : τ) (x : π) :
    population p (update pc' t x) + (p (pc t)).toNat = population p pc + (p x).toNat := by
  have moved := population_update p pc' t x
  rwa [wakes.congr p blind t, population_wakes blind wakes] at moved

/-- `p` holds of the notified threads and of no sleeper. -/
structure Notified (c : Condition π) (p : π → Bool) : Prop where
  asleep : ∀ x, c.asleep x = true → p x = false
  woken : ∀ x, c.asleep x = true → p (c.wake x) = true

/-- A notification of one sleeper. -/
theorem population_notify {c : Condition π} {p : π → Bool} (notified : Notified c p)
    {pc : τ → π} {t : τ} (sleeps : c.asleep (pc t) = true) :
    population p (c.notify pc t) = population p pc + 1 := by
  have moved := population_update p pc t (c.wake (pc t))
  rw [notified.asleep _ sleeps, notified.woken _ sleeps] at moved
  exact moved

/-- A signal that finds a sleeper notifies one. -/
theorem population_signal {c : Condition π} {p : π → Bool} (notified : Notified c p)
    {pc pc' : τ → π} (signal : c.Signal pc pc') {t : τ} (sleeps : c.asleep (pc t) = true) :
    population p pc' = population p pc + 1 := by
  obtain ⟨target, reaches⟩ := signal
  cases reaches with
  | one u here => exact population_notify notified here
  | nobody none_sleeps =>
      rw [none_sleeps t] at sleeps
      cases sleeps

end CprFormal.Library.Population
