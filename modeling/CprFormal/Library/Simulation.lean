import CprFormal.Library.Transition

/-!
# Forward simulations of labelled systems

An implementation is compared with a specification through what can be seen of
their events.  A simulation sends every state of the implementation to one of
the specification; a step is answered by one step with the same visible part, or
by none when nothing is to be seen of it.  Along a whole run the two then show
the same history.
-/

namespace CprFormal.Library.Simulation

open CprFormal.Library.Transition

variable {σ ε σ' ε' ο : Type}

/-- What is seen of a trace. -/
def history (see : ε → Option ο) (trace : List ε) : List ο :=
  trace.filterMap see

theorem history_append (see : ε → Option ο) (first second : List ε) :
    history see (first ++ second) = history see first ++ history see second :=
  List.filterMap_append

/-- A step of the specification that shows `seen`, or none when nothing is seen. -/
inductive Answer (spec : System σ' ε') (see' : ε' → Option ο) (seen : Option ο) (a a' : σ') :
    Prop where
  | move (e' : ε') (step : spec.step a e' a') (same : see' e' = seen) : Answer spec see' seen a a'
  | stutter (same : a' = a) (unseen : seen = none) : Answer spec see' seen a a'

/-- `impl` is simulated by `spec` along `abs`, on the states that meet `Inv`. -/
structure Simulates (impl : System σ ε) (spec : System σ' ε') (see : ε → Option ο)
    (see' : ε' → Option ο) (abs : σ → σ') (Inv : σ → Prop) : Prop where
  start : ∀ s, impl.init s → spec.init (abs s)
  answer : ∀ s e s', Inv s → impl.step s e s' → Answer spec see' (see e) (abs s) (abs s')

/-- Every run of the implementation is matched by one of the specification that
ends in the abstraction of its state and shows the same history. -/
theorem Simulates.run {impl : System σ ε} {spec : System σ' ε'} {see : ε → Option ο}
    {see' : ε' → Option ο} {abs : σ → σ'} {Inv : σ → Prop}
    (sim : Simulates impl spec see see' abs Inv)
    (inv : ∀ trace s, Run impl trace s → Inv s) {trace : List ε} {s : σ}
    (run : Run impl trace s) :
    ∃ trace', Run spec trace' (abs s) ∧ history see' trace' = history see trace := by
  induction run with
  | start hs => exact ⟨[], .start (sim.start _ hs), rfl⟩
  | @next trace s s' e before step ih =>
      obtain ⟨trace', run', same⟩ := ih
      cases sim.answer s e s' (inv trace s before) step with
      | move e' step' shown =>
          refine ⟨trace' ++ [e'], run'.next step', ?_⟩
          rw [history_append, history_append, same]
          simp only [history, List.filterMap_cons, shown, List.filterMap_nil]
      | stutter kept unseen =>
          refine ⟨trace', kept ▸ run', ?_⟩
          rw [history_append, same]
          simp [history, unseen]

end CprFormal.Library.Simulation
