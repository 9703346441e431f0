import CprFormal.Pipeline.Fifo

/-!
# Wake-ups of a close

`close_pipeline` sets the flag and broadcasts without the lock.  A thread that
has found the pipeline open and is bound for `cnd_wait` at the moment of a
broadcast falls asleep behind it, and nobody wakes it again.  When no broadcast
meets such a thread, everybody is awake once the close has returned.
-/

namespace CprFormal.Pipeline.Close

open Function (update)
open CprFormal.Library.Monitor CprFormal.Library.Transition
open CprFormal.Pipeline.Model CprFormal.Pipeline.Lock CprFormal.Pipeline.Fifo

variable {τ α : Type}

/-- A lock owner that has found the pipeline open and will sleep on `c`. -/
def bound (pl : PipelineT α) : Cond → Pc α → Bool
  | .input, .putSleep _ => true
  | .input, .putCount _ => decide (¬ pl.count < pl.size) && decide (pl.policy = .wait)
  | .output, .getSleep => true
  | .output, .getCount => decide (pl.count = 0)
  | _, _ => false

/-- A broadcast finds nobody on the way to sleep on its condition. -/
def Unbound (s : State τ α) : Event τ α → Prop
  | .broadcast _ c => ∀ u, bound s.pl c (s.pc u) = false
  | _ => True

theorem bound_wake (pl : PipelineT α) (c : Cond) (pc : Pc α) :
    bound pl c pc.wake = bound pl c pc := by
  cases c <;> cases pc <;> rfl

theorem bound_holds (pl : PipelineT α) (c : Cond) {pc : Pc α} (free : pc.holds = false) :
    bound pl c pc = false := by
  cases c <;> cases pc <;> first | rfl | cases free

theorem asleep_wake (c : Cond) (pc : Pc α) : c.condition.asleep pc.wake = false := by
  cases c <;> cases pc <;> rfl

/-- Neither asleep on `c` nor on the way to it. -/
def Clear (c : Cond) (pl : PipelineT α) (pc : Pc α) : Prop :=
  c.condition.asleep pc = false ∧ bound pl c pc = false

theorem clear_kept {c : Cond} {pl : PipelineT α} {pc pc' : Pc α} (kept : Kept pc pc')
    (clear : Clear c pl pc) : Clear c pl pc' := by
  rcases kept with same | woken
  · rwa [same]
  · rw [woken]
    exact ⟨asleep_wake c pc, by rw [bound_wake]; exact clear.2⟩

theorem clear_slept {c : Cond} {pl : PipelineT α} {pc next : Pc α}
    (here : pc.slept = some next) (clear : Clear c pl pc) : Clear c pl next := by
  cases pc <;> cases here
  · cases c
    · exact ⟨rfl, rfl⟩
    · exact absurd clear.2 (by simp [bound])
  · cases c
    · exact absurd clear.2 (by simp [bound])
    · exact ⟨rfl, rfl⟩

theorem clear_entered (c : Cond) (pl : PipelineT α) {pc next : Pc α}
    (here : pc.entered = some next) : Clear c pl next := by
  cases pc <;> cases here <;> cases c <;> exact ⟨rfl, rfl⟩

variable [DecidableEq τ]

/-- Only the owner of the lock changes the ring. -/
theorem step_pl {s s' : State τ α} {e : Event τ α} (step : Step s e s')
    (free : (s.pc e.actor).holds = false) : s'.pl = s.pl := by
  cases step with
  | putStore t here | getTake t here | putDrop t here | closeDrain t here =>
      simp [Event.actor, here, Pc.holds] at free
  | _ => rfl

/-- On a closed pipeline a thread that is clear of a condition stays clear. -/
theorem step_clear {s s' : State τ α} {e : Event τ α} (owner : Owner s) (c : Cond)
    (step : Step s e s') (closed : s.closed = true)
    (clear : ∀ u, Clear c s.pl (s.pc u)) (u : τ) : Clear c s'.pl (s'.pc u) := by
  by_cases own : u = e.actor
  · subst own
    cases step with
    | acquire t here => simpa [Event.actor] using clear_entered c s.pl here
    | sleep t here => simpa [Event.actor] using clear_slept here (clear t)
    | spurious t d here =>
        refine clear_kept (.inr ?_) (clear t)
        simp [Event.actor, Condition.notify]
    | getTest t here | putTest t here =>
        cases c <;> simp [Event.actor, closed, Clear, Cond.condition, Pc.asleepInput,
          Pc.asleepOutput, bound]
    | getEmpty t here empty =>
        have before := (clear t).2
        rw [here] at before
        cases c <;> simp [Event.actor, Clear, Cond.condition, Pc.asleepInput,
          bound, empty] at before ⊢
    | putFull t here full policy =>
        have before := (clear t).2
        rw [here] at before
        cases c <;> simp [Event.actor, Clear, Cond.condition, Pc.asleepInput,
          Pc.asleepOutput, bound, policy] at before ⊢
        exact full before
    | closeDrain t here =>
        rw [show s.pc (Event.drained t s.pl.front).actor = .closeDrain from here]
        cases c <;> exact ⟨rfl, rfl⟩
    | putCall t _ here | getCall t here | closeCall t here | getTake t here
    | getReturn t here | putStore t here | putDrop t here | putReturn t here
    | closeAgain t here | closeFirst t here | closeInput t here | closeOutput t here
    | closeReturn t here =>
        cases c <;> simp [Event.actor, Clear, Cond.condition, Pc.asleepInput,
          Pc.asleepOutput, bound]
  · have kept := clear_kept ((step_move owner step).others u own) (clear u)
    cases held : (s.pc e.actor).holds with
    | false => rwa [step_pl step held]
    | true =>
        -- The mover owns the lock, so `u` stands where the ring does not matter.
        have free : (s'.pc u).holds = false := by
          cases holding : (s.pc u).holds with
          | true =>
              have both := ((owner _).mp holding).symm.trans ((owner _).mp held)
              exact absurd (Option.some.inj both) own
          | false =>
              rwa [step_others holds_wake owner step own]
        exact ⟨kept.1, bound_holds s'.pl c free⟩

/-- A closer that has sent the broadcast on `c`. -/
def sent : Cond → Pc α → Bool
  | .input, .closeOutput | .input, .closeLock | .input, .closeDrain => true
  | .output, .closeLock | .output, .closeDrain => true
  | _, _ => false

/-- The broadcast on `c` has been made. -/
def Swept (c : Cond) (trace : List (Event τ α)) : Prop :=
  ∃ t, Event.broadcast t c ∈ trace

omit [DecidableEq τ] in
theorem swept_append {c : Cond} {trace : List (Event τ α)} (e : Event τ α)
    (swept : Swept c trace) : Swept c (trace ++ [e]) := by
  obtain ⟨t, member⟩ := swept
  exact ⟨t, List.mem_append_left _ member⟩

omit [DecidableEq τ] in
theorem sent_wake (c : Cond) (pc : Pc α) : sent c pc.wake = sent c pc := by
  cases c <;> cases pc <;> rfl

/-- A closer passes its broadcasts in order. -/
theorem step_sent {s s' : State τ α} {e : Event τ α} {trace : List (Event τ α)}
    (owner : Owner s) (step : Step s e s') (c : Cond)
    (order : ∀ u, sent c (s.pc u) = true → Swept c trace) (u : τ)
    (passed : sent c (s'.pc u) = true) : Swept c (trace ++ [e]) := by
  by_cases own : u = e.actor
  · subst own
    cases step with
    | acquire t here =>
        refine swept_append _ (order t ?_)
        cases hpc : s.pc t <;> rw [hpc] at here <;> cases here <;> cases c <;>
          simp [Event.actor, sent] at passed ⊢
    | sleep t here =>
        cases hpc : s.pc t <;> rw [hpc] at here <;> cases here <;> cases c <;>
          simp [Event.actor, sent] at passed
    | spurious t d here =>
        exact swept_append _ (order t
          (by simpa [Event.actor, Condition.notify, sent_wake] using passed))
    | getTest t here | putTest t here =>
        cases closed : s.closed <;> cases c <;> simp [Event.actor, closed, sent] at passed
    | closeInput t here =>
        cases c with
        | input => exact ⟨t, by simp⟩
        | output => simp [Event.actor, sent] at passed
    | closeOutput t here =>
        cases c with
        | input => exact swept_append _ (order t (by rw [here]; rfl))
        | output => exact ⟨t, by simp⟩
    | closeDrain t here => exact swept_append _ (order t passed)
    | putCall t _ here | getCall t here | closeCall t here | getTake t here
    | getEmpty t here | getReturn t here | putStore t here | putFull t here | putDrop t here
    | putReturn t here | closeAgain t here | closeFirst t here | closeReturn t here =>
        cases c <;> simp [Event.actor, sent] at passed
  · apply swept_append
    apply order u
    rwa [step_others (sent_wake c) owner step own] at passed

/-- A completed close has made both broadcasts. -/
theorem step_returned {s s' : State τ α} {e : Event τ α} {trace : List (Event τ α)}
    (step : Step s e s') (c : Cond)
    (order : ∀ u, sent c (s.pc u) = true → Swept c trace)
    (before : ∀ t, Event.closeReturn t true ∈ trace → Swept c trace) (t : τ)
    (returned : Event.closeReturn t true ∈ trace ++ [e]) : Swept c (trace ++ [e]) := by
  rcases List.mem_append.mp returned with earlier | now
  · exact swept_append e (before t earlier)
  · rw [← List.mem_singleton.mp now] at step
    cases step with
    | closeReturn _ here empty =>
        exact swept_append e (order t (by rw [here]; cases c <;> rfl))

/-! ## Whole runs -/

/-- What a run maintains whose broadcasts meet nobody bound for their condition. -/
structure Inv (trace : List (Event τ α)) (s : State τ α) : Prop where
  owner : Owner s
  flag : ∀ u, closing (s.pc u) = true → s.closed = true
  order : ∀ c u, sent c (s.pc u) = true → Swept c trace
  returned : ∀ c t, Event.closeReturn t true ∈ trace → Swept c trace
  clear : ∀ c, Swept c trace → s.closed = true ∧ ∀ u, Clear c s.pl (s.pc u)

/-- A broadcast that meets nobody bound for its condition clears it. -/
theorem step_broadcast {s s' : State τ α} {t : τ} {c : Cond}
    (flag : ∀ u, closing (s.pc u) = true → s.closed = true)
    (step : Step s (.broadcast t c) s') (unbound : ∀ u, bound s.pl c (s.pc u) = false) :
    s'.closed = true ∧ ∀ u, Clear c s'.pl (s'.pc u) := by
  have woken (u : τ) : Clear c s.pl (c.condition.broadcast s.pc u) := by
    refine ⟨Condition.broadcast_asleep _ (fun p => ?_) _ _, ?_⟩
    · rw [condition_wake]
      exact asleep_wake c p
    · rw [Condition.Wakes.congr (bound s.pl c) ?_ (Condition.wakes_broadcast _ _)]
      · exact unbound u
      · intro p _
        rw [condition_wake, bound_wake]
  cases step with
  | closeInput _ here =>
      refine ⟨flag t (by rw [here]; rfl), fun u => ?_⟩
      by_cases own : u = t
      · subst own
        simp [Clear, Cond.condition, Pc.asleepInput, bound]
      · simpa [own] using woken u
  | closeOutput _ here =>
      refine ⟨flag t (by rw [here]; rfl), fun u => ?_⟩
      by_cases own : u = t
      · subst own
        simp [Clear, Cond.condition, Pc.asleepOutput, bound]
      · simpa [own] using woken u

theorem step_inv {trace : List (Event τ α)} {s s' : State τ α} {e : Event τ α}
    (inv : Inv trace s) (step : Step s e s') (unbound : Unbound s e) :
    Inv (trace ++ [e]) s' where
  owner := step_owner inv.owner step
  flag := step_closing inv.owner step inv.flag
  order c := step_sent inv.owner step c (inv.order c)
  returned c := step_returned step c (inv.order c) (inv.returned c)
  clear c swept := by
    obtain ⟨t, member⟩ := swept
    rcases List.mem_append.mp member with earlier | now
    · obtain ⟨closed, clear⟩ := inv.clear c ⟨t, earlier⟩
      exact ⟨step_closed step closed, step_clear inv.owner c step closed clear⟩
    · rw [← List.mem_singleton.mp now] at step unbound
      exact step_broadcast inv.flag step unbound

theorem run_inv {size : Nat} {policy : Policy} {trace : List (Event τ α)} {s : State τ α}
    (run : Run ((system τ α size policy).restrict Unbound) trace s) : Inv trace s := by
  refine Run.invariant Inv ?_ ?_ run
  · rintro s rfl
    refine ⟨?_, ?_, ?_, ?_, ?_⟩
    · intro t
      simp [initial, Pc.holds]
    · intro u inside
      simp [initial, closing] at inside
    · intro c u passed
      cases c <;> simp [initial, sent] at passed
    · intro c t member
      cases member
    · rintro c ⟨t, member⟩
      cases member
  · rintro trace s e s' inv ⟨step, unbound⟩
    exact step_inv inv step unbound

/-- In a run whose broadcasts meet nobody on the way to sleep on their condition,
no thread sleeps un-notified once the close that set the flag has returned. -/
theorem close_wakes_everybody {size : Nat} {policy : Policy} {trace : List (Event τ α)}
    {s : State τ α} (run : Run ((system τ α size policy).restrict Unbound) trace s)
    {t : τ} (returned : Event.closeReturn t true ∈ trace) (c : Cond) (u : τ) :
    c.condition.asleep (s.pc u) = false := by
  have inv := run_inv run
  exact ((inv.clear c (inv.returned c t returned)).2 u).1

/-- A consumer sleeps before the close and is woken by it. -/
theorem close_wakes_everybody_sleeper :
    ∃ (trace : List (Event Bool Unit)) (s : State Bool Unit),
      Run ((system Bool Unit 1 .wait).restrict Unbound) trace s ∧
      Event.closeReturn false true ∈ trace ∧
      Cond.output.condition.asleep (s.pc true) = false := by
  have start : Run ((system Bool Unit 1 .wait).restrict Unbound) [] (initial 1 .wait) :=
    .start rfl
  have called := start.next ⟨.getCall true rfl, trivial⟩
  have tested := (called.next ⟨.acquire true rfl rfl, trivial⟩).next
    ⟨.getTest true rfl, trivial⟩
  have asleep := (tested.next ⟨.getEmpty true rfl rfl, trivial⟩).next
    ⟨.sleep true rfl, trivial⟩
  have flagged := (asleep.next ⟨.closeCall false rfl, trivial⟩).next
    ⟨.closeFirst false rfl rfl, trivial⟩
  have swept := flagged.next ⟨.closeInput false rfl, fun u => by cases u <;> rfl⟩
  have woken := swept.next ⟨.closeOutput false rfl, fun u => by cases u <;> rfl⟩
  have drained := woken.next ⟨.acquire false rfl rfl, trivial⟩
  have returned := drained.next ⟨.closeReturn false rfl rfl, trivial⟩
  exact ⟨_, _, returned, List.mem_concat_self,
    close_wakes_everybody returned List.mem_concat_self .output true⟩

/-- The flag and both broadcasts fall between a consumer's test of the flag and
its `cnd_wait`: it is still asleep when the close has returned. -/
theorem close_loses_wakeup :
    ¬ ∀ (trace : List (Event Bool Unit)) (s : State Bool Unit),
      Run (system Bool Unit 1 .wait) trace s →
      (∃ t, Event.closeReturn t true ∈ trace) →
      ∀ (c : Cond) (u : Bool), c.condition.asleep (s.pc u) = false := by
  intro claimed
  have start : Run (system Bool Unit 1 .wait) [] (initial 1 .wait) := .start rfl
  have called := start.next (Step.getCall true rfl)
  have tested := (called.next (.acquire true rfl rfl)).next (.getTest true rfl)
  have flagged := (tested.next (.closeCall false rfl)).next (.closeFirst false rfl rfl)
  have swept := (flagged.next (.closeInput false rfl)).next (.closeOutput false rfl)
  have asleep := (swept.next (.getEmpty true rfl rfl)).next (.sleep true rfl)
  have returned := (asleep.next (.acquire false rfl rfl)).next (.closeReturn false rfl rfl)
  have awake := claimed _ _ returned ⟨false, List.mem_concat_self⟩ .output true
  cases awake

end CprFormal.Pipeline.Close
