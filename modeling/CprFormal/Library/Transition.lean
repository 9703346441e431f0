import Mathlib.Logic.Function.Basic

/-!
# Labelled transition systems

Runs of a labelled system are recorded with the list of the events they made,
oldest first.  A system can be restricted to the steps that meet a condition on
the state before the step and on its event, which is how a statement about
"every run whose steps all meet the condition" is written.
-/

namespace CprFormal.Library.Transition

/-- A labelled transition system over states `σ` and events `ε`. -/
structure System (σ ε : Type) where
  init : σ → Prop
  step : σ → ε → σ → Prop

variable {σ ε : Type}

/-- A run from an initial state, with its events in order. -/
inductive Run (sys : System σ ε) : List ε → σ → Prop where
  | start {s : σ} : sys.init s → Run sys [] s
  | next {trace : List ε} {s s' : σ} {e : ε} :
      Run sys trace s → sys.step s e s' → Run sys (trace ++ [e]) s'

namespace System

/-- The same system with only the steps that meet `allowed`. -/
def restrict (sys : System σ ε) (allowed : σ → ε → Prop) : System σ ε where
  init := sys.init
  step s e s' := sys.step s e s' ∧ allowed s e

end System

namespace Run

/-- The invariant rule: what the initial states meet and every step keeps holds
after every run. -/
theorem invariant {sys : System σ ε} (Inv : List ε → σ → Prop)
    (hinit : ∀ s, sys.init s → Inv [] s)
    (hstep : ∀ trace s e s', Inv trace s → sys.step s e s' → Inv (trace ++ [e]) s')
    {trace : List ε} {s : σ} (run : Run sys trace s) : Inv trace s := by
  induction run with
  | start hs => exact hinit _ hs
  | next _ hs ih => exact hstep _ _ _ _ ih hs

/-- A run of a restricted system is a run of the system. -/
theorem relax {sys : System σ ε} {allowed : σ → ε → Prop} {trace : List ε} {s : σ}
    (run : Run (sys.restrict allowed) trace s) : Run sys trace s := by
  induction run with
  | start hs => exact .start hs
  | next _ hs ih => exact ih.next hs.1

end Run

/-! ## Deterministic runs -/

/-- `P` holds of every state that the events lead through. -/
def Along (step : σ → ε → σ) (P : σ → Prop) : σ → List ε → Prop
  | s, [] => P s
  | s, e :: rest => P s ∧ Along step P (step s e) rest

/-- What holds all along holds in the first state. -/
theorem Along.here {step : σ → ε → σ} {P : σ → Prop} {s : σ} {events : List ε}
    (along : Along step P s events) : P s := by
  cases events with
  | nil => exact along
  | cons e rest => exact along.1

/-- What holds all along holds behind every first part of the events. -/
theorem along_iff_take {step : σ → ε → σ} {P : σ → Prop} {s : σ} {events : List ε} :
    Along step P s events ↔ ∀ n, P ((events.take n).foldl step s) := by
  induction events generalizing s with
  | nil =>
      have same (n : Nat) : (([] : List ε).take n).foldl step s = s := by simp
      exact ⟨fun here n => (same n).symm ▸ here, fun all => same 0 ▸ all 0⟩
  | cons e rest ih =>
      change P s ∧ Along step P (step s e) rest ↔ _
      rw [ih]
      constructor
      · rintro ⟨here, later⟩ n
        cases n with
        | zero => exact here
        | succ n => exact later n
      · exact fun all => ⟨all 0, fun n => all (n + 1)⟩

/-- `allowed` holds of every event in the state in which it comes. -/
def Throughout (step : σ → ε → σ) (allowed : σ → ε → Prop) : σ → List ε → Prop
  | _, [] => True
  | s, e :: rest => allowed s e ∧ Throughout step allowed (step s e) rest

instance Throughout.decidable {step : σ → ε → σ} {allowed : σ → ε → Prop}
    [∀ s e, Decidable (allowed s e)] (s : σ) :
    (events : List ε) → Decidable (Throughout step allowed s events)
  | [] => inferInstanceAs (Decidable True)
  | e :: rest =>
      have : Decidable (Throughout step allowed (step s e) rest) :=
        Throughout.decidable (step s e) rest
      inferInstanceAs (Decidable (allowed s e ∧ Throughout step allowed (step s e) rest))

/-- When a single step keeps `P` exactly if it is allowed, a whole run keeps `P`
exactly if all its steps are allowed.  Only an allowed step has to keep the invariant. -/
theorem along_iff_throughout {step : σ → ε → σ} {P : σ → Prop} {allowed : σ → ε → Prop}
    (Inv : σ → Prop) (hinv : ∀ s e, Inv s → P s → allowed s e → Inv (step s e))
    (hstep : ∀ s e, Inv s → P s → (P (step s e) ↔ allowed s e))
    {s : σ} (inv : Inv s) (here : P s) (events : List ε) :
    Along step P s events ↔ Throughout step allowed s events := by
  induction events generalizing s with
  | nil => exact ⟨fun _ => trivial, fun _ => here⟩
  | cons e rest ih =>
      have single := hstep s e inv here
      constructor
      · rintro ⟨_, later⟩
        have next : P (step s e) := later.here
        have meets := single.mp next
        exact ⟨meets, (ih (hinv s e inv here meets) next).mp later⟩
      · rintro ⟨meets, later⟩
        have next := single.mpr meets
        exact ⟨here, (ih (hinv s e inv here meets) next).mpr later⟩

/-- Two conditions that agree under an invariant, of the state and the events still to
come, agree throughout a run.  Only a step that meets them has to keep the invariant. -/
theorem throughout_congr {step : σ → ε → σ} {P Q : σ → ε → Prop} (Inv : σ → List ε → Prop)
    (hinv : ∀ s e rest, Inv s (e :: rest) → Q s e → Inv (step s e) rest)
    (same : ∀ s e rest, Inv s (e :: rest) → (P s e ↔ Q s e))
    {s : σ} {events : List ε} (inv : Inv s events) :
    Throughout step P s events ↔ Throughout step Q s events := by
  induction events generalizing s with
  | nil => exact Iff.rfl
  | cons e rest ih =>
      have single := same s e rest inv
      constructor
      · rintro ⟨here, later⟩
        have meets := single.mp here
        exact ⟨meets, (ih (hinv s e rest inv meets)).mp later⟩
      · rintro ⟨meets, later⟩
        exact ⟨single.mpr meets, (ih (hinv s e rest inv meets)).mpr later⟩

end CprFormal.Library.Transition
