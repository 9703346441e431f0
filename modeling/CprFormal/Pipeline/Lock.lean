import CprFormal.Pipeline.Model

/-!
# Lock ownership in a pipeline

A step moves its own thread and may wake others.  From this one description of
a step it follows that the threads at a lock-holding point are exactly the
owner of the lock, and that the owner's data is untouched by everybody else.
-/

namespace CprFormal.Pipeline.Lock

open Function (update)
open CprFormal.Library.Monitor CprFormal.Library.Transition
open CprFormal.Pipeline.Model

variable {τ α : Type} [DecidableEq τ]

@[simp]
theorem condition_wake (c : Cond) (pc : Pc α) :
    c.condition.wake pc = pc.wake := by
  cases c <;> rfl

@[simp]
theorem holds_wake (pc : Pc α) : pc.wake.holds = pc.holds := by
  cases pc <;> rfl

theorem asleep_not_holds {c : Cond} {pc : Pc α}
    (sleeps : c.condition.asleep pc = true) : pc.holds = false := by
  cases c <;> cases pc <;> first | rfl | cases sleeps

theorem entered_holds {pc next : Pc α} (here : pc.entered = some next) :
    next.holds = true ∧ pc.holds = false := by
  cases pc <;> simp_all [Pc.entered] <;> subst here <;> exact ⟨rfl, rfl⟩

theorem slept_holds {pc next : Pc α} (here : pc.slept = some next) :
    next.holds = false ∧ pc.holds = true := by
  cases pc <;> simp_all [Pc.slept] <;> subst here <;> exact ⟨rfl, rfl⟩

theorem SignalIf.wakes {test : Bool} {c : Cond} {pc pc' : τ → Pc α}
    (signal : SignalIf test c pc pc') : c.condition.Wakes pc pc' := by
  unfold SignalIf at signal
  split at signal
  · exact signal.wakes
  · rw [signal]
    exact .refl _ _

/-- A thread is where it was, or it has been woken. -/
def Kept (pc pc' : Pc α) : Prop := pc' = pc ∨ pc' = pc.wake

omit [DecidableEq τ] in
theorem kept_of_wakes {c : Cond} {pc pc' : τ → Pc α}
    (wakes : c.condition.Wakes pc pc') (t : τ) : Kept (pc t) (pc' t) := by
  rcases wakes t with same | ⟨_, woken⟩
  · exact .inl same
  · exact .inr (by simpa using woken)

/-- What a wake-up does not change is kept. -/
theorem Kept.congr {β : Type} {f : Pc α → β} (blind : ∀ pc, f pc.wake = f pc) {pc pc' : Pc α}
    (kept : Kept pc pc') : f pc' = f pc := by
  rcases kept with same | woken
  · rw [same]
  · rw [woken, blind]

theorem kept_update {c : Cond} {pc pc' : τ → Pc α} {t u : τ} {next : Pc α}
    (wakes : c.condition.Wakes pc pc') (other : u ≠ t) :
    Kept (pc u) (update pc' t next u) := by
  rw [Function.update_of_ne other]
  exact kept_of_wakes wakes u

/-- What a step by `t` does to the other threads and to the lock. -/
structure Move (s s' : State τ α) (t : τ) : Prop where
  others : ∀ u, u ≠ t → Kept (s.pc u) (s'.pc u)
  lock : s'.lock =
    if (s'.pc t).holds then some t else if (s.pc t).holds then none else s.lock
  taken : (s'.pc t).holds = true → (s.pc t).holds = true ∨ s.lock = none

/-- Thread `t` owns the lock exactly when it stands at a lock-holding point. -/
def Owner (s : State τ α) : Prop :=
  ∀ t, (s.pc t).holds = true ↔ s.lock = some t

/-- A move that neither takes nor gives the lock. -/
theorem Move.still {s : State τ α} {t : τ} {pc' : τ → Pc α} {next : Pc α} {c : Cond}
    (owner : Owner s) (wakes : c.condition.Wakes s.pc pc')
    (same : next.holds = (s.pc t).holds) (pl : PipelineT α) (closed : Bool) :
    Move s { s with pl := pl, closed := closed, pc := update pc' t next } t where
  others u other := kept_update wakes other
  lock := by
    cases held : (s.pc t).holds with
    | true => simpa [same, held] using (owner t).mp held
    | false => simp [same, held]
  taken held := .inl (by simpa [same] using held)

/-- A move that unlocks or falls asleep in `cnd_wait`. -/
theorem Move.leave {s : State τ α} {t : τ} {next : Pc α}
    (held : (s.pc t).holds = true) (gone : next.holds = false) :
    Move s { s with lock := none, pc := update s.pc t next } t where
  others u other := kept_update (c := .input) (.refl _ _) other
  lock := by simp [gone, held]
  taken again := by simp [gone] at again

/-- A move that takes the free lock. -/
theorem Move.enter {s : State τ α} {t : τ} {next : Pc α}
    (free : s.lock = none) (held : next.holds = true) :
    Move s { s with lock := some t, pc := update s.pc t next } t where
  others u other := kept_update (c := .input) (.refl _ _) other
  lock := by simp [held]
  taken _ := .inr free

theorem Move.wake {s : State τ α} {t : τ} {c : Cond}
    (sleeps : c.condition.asleep (s.pc t) = true) :
    Move s { s with pc := c.condition.notify s.pc t } t where
  others u other := .inl (by simp [Condition.notify, other])
  lock := by simp [Condition.notify, asleep_not_holds sleeps]
  taken held := by simp [Condition.notify, asleep_not_holds sleeps] at held

theorem step_move {s s' : State τ α} {e : Event τ α} (owner : Owner s)
    (step : Step s e s') : Move s s' e.actor := by
  cases step with
  | putCall t ptr here | getCall t here | closeCall t here =>
      exact .still (c := .input) owner (.refl _ _) (by rw [here]; rfl) s.pl s.closed
  | acquire t here free => exact .enter free (entered_holds here).1
  | sleep t here => exact .leave (slept_holds here).2 (slept_holds here).1
  | spurious t c here => exact .wake here
  | getTest t here | putTest t here =>
      refine .still (c := .input) owner (.refl _ _) ?_ s.pl s.closed
      rw [here]
      split <;> rfl
  | getTake t here _ signal | putStore t here _ signal =>
      exact .still owner (SignalIf.wakes signal) (by rw [here]; rfl) _ s.closed
  | getEmpty t here | putFull t here =>
      exact .still (c := .input) owner (.refl _ _) (by rw [here]; rfl) s.pl s.closed
  | putDrop t here =>
      exact .still (c := .input) owner (.refl _ _) (by rw [here]; rfl) _ s.closed
  | getReturn t here | putReturn t here | closeReturn t here =>
      exact .leave (by rw [here]; rfl) rfl
  | closeAgain t here | closeFirst t here =>
      exact .still (c := .input) owner (.refl _ _) (by rw [here]; rfl) s.pl _
  | closeInput t here | closeOutput t here =>
      exact .still owner (Condition.wakes_broadcast _ _) (by rw [here]; rfl) s.pl s.closed
  | closeDrain t here =>
      have kept : update s.pc t .closeDrain = s.pc := by rw [← here, Function.update_eq_self]
      have moved := Move.still (c := .input) owner (.refl _ _)
        (show Pc.closeDrain.holds = (s.pc t).holds by rw [here]) s.pl.discard s.closed
      rwa [kept] at moved

/-- Ownership is kept by every step. -/
theorem step_owner {s s' : State τ α} {e : Event τ α} (owner : Owner s)
    (step : Step s e s') : Owner s' := by
  have move := step_move owner step
  intro u
  by_cases own : u = e.actor
  · subst own
    rw [move.lock]
    cases after : (s'.pc e.actor).holds with
    | true => simp
    | false =>
        cases before : (s.pc e.actor).holds with
        | true => simp
        | false =>
            have free : ¬ s.lock = some e.actor := fun held => by
              rw [(owner _).mpr held] at before
              cases before
            simpa using free
  · have kept : (s'.pc u).holds = (s.pc u).holds := (move.others u own).congr holds_wake
    rw [kept, owner u, move.lock]
    cases after : (s'.pc e.actor).holds with
    | true =>
        have apart : some e.actor ≠ some u := fun same => own (Option.some.inj same).symm
        have unheld : s.lock ≠ some u := by
          rcases move.taken after with before | free
          · rw [(owner _).mp before]
            exact apart
          · simp [free]
        simp [unheld, apart]
    | false =>
        cases before : (s.pc e.actor).holds with
        | true =>
            rw [(owner _).mp before]
            simpa using fun same => own same.symm
        | false => simp

/-- A step of one thread leaves what a wake-up does not change of the others. -/
theorem step_others {β : Type} {f : Pc α → β} (blind : ∀ pc, f pc.wake = f pc)
    {s s' : State τ α} {e : Event τ α} (owner : Owner s) (step : Step s e s') {u : τ}
    (other : u ≠ e.actor) : f (s'.pc u) = f (s.pc u) :=
  ((step_move owner step).others u other).congr blind

/-- What the owner of the lock carries with it, by its program point. -/
def flight {β : Type} (f : Pc α → List β) (s : State τ α) : List β :=
  match s.lock with
  | some t => f (s.pc t)
  | none => []

omit [DecidableEq τ] in
theorem flight_of_holds {β : Type} {f : Pc α → List β} {s : State τ α} (owner : Owner s)
    {t : τ} (held : (s.pc t).holds = true) : flight f s = f (s.pc t) := by
  rw [flight, (owner t).mp held]

/-- Only the moving thread can change what the owner of the lock carries. -/
theorem step_flight {β : Type} {f : Pc α → List β} (blind : ∀ pc, f pc.wake = f pc)
    (quiet : ∀ pc, pc.holds = false → f pc = []) {s s' : State τ α} {e : Event τ α}
    (owner : Owner s) (step : Step s e s') :
    flight f s' =
      if (s.pc e.actor).holds || (s'.pc e.actor).holds then f (s'.pc e.actor)
      else flight f s := by
  have move := step_move owner step
  have owner' := step_owner owner step
  cases after : (s'.pc e.actor).holds with
  | true => simpa using flight_of_holds owner' after
  | false =>
      cases before : (s.pc e.actor).holds with
      | true =>
          have gone : s'.lock = none := by simp [move.lock, after, before]
          simp [flight, gone, quiet _ after]
      | false =>
          have same : s'.lock = s.lock := by simp [move.lock, after, before]
          cases held : s.lock with
          | none => simp [flight, same, held]
          | some u =>
              have other : u ≠ e.actor := fun eq => by
                rw [← eq, (owner u).mpr held] at before
                cases before
              have kept : f (s'.pc u) = f (s.pc u) := (move.others u other).congr blind
              simp [flight, same, held, kept]

end CprFormal.Pipeline.Lock
