import Mathlib.Data.Fintype.Basic
import Mathlib.Tactic.FinCases
import CprFormal.Thread.Condlock

/-!
# Wake-ups of the condition lock

A release or commit that finds writers pending sends one signal on the condition
variable that readers sleep on as well.  When the signal reaches a reader, the
reader finds the writers still pending and goes back to sleep, and the wake-up is
lost.  When every signal sent while a writer sleeps reaches a writer, a free lock
always leaves somebody awake who still has to test it.
-/

namespace CprFormal.Thread.CondlockWakeup

open Function (update)
open CprFormal.Library.Monitor CprFormal.Library.Population CprFormal.Library.Transition
open CprFormal.Thread.Condlock

variable {τ : Type} [DecidableEq τ] [Fintype τ]

/-- A signal sent while a writer sleeps un-notified reaches a writer. -/
def ReachesWriter (pc : τ → Pc) (target : Option τ) : Prop :=
  (∃ w, pc w = .writeAsleep) → ∃ w, target = some w ∧ pc w = .writeAsleep

/-- The condition on the signals of a release or a commit. -/
def WriterFirst (s : State τ) : Event τ → Prop
  | .release _ .signal target => ReachesWriter s.pc target
  | .commit _ .signal target => ReachesWriter s.pc target
  | _ => True

/-- No reader is inside and no writer holds the mutex. -/
def Free (s : State τ) : Prop := s.lock.sharing = 0 ∧ s.mtx = none

/-- Somebody is on the way to take the free lock, or nobody waits for it. -/
structure Handed (s : State τ) : Prop where
  writers : s.lock.pending ≠ 0 → ∃ w, s.pc w = .writeAwake
  readers : s.lock.pending = 0 → ∀ r, s.pc r ≠ .readAsleep

omit [DecidableEq τ] [Fintype τ] in
/-- A wake-up leaves a writer awake that was awake. -/
theorem wakes_writeAwake {pc pc' : τ → Pc} (wakes : bcast.Wakes pc pc') {w : τ}
    (awake : pc w = .writeAwake) : pc' w = .writeAwake := by
  rcases wakes w with same | ⟨_, woken⟩
  · rw [same, awake]
  · rw [woken, awake]
    rfl

omit [DecidableEq τ] [Fintype τ] in
/-- A reader asleep behind a wake-up was asleep in front of it. -/
theorem wakes_readAsleep {pc pc' : τ → Pc} (wakes : bcast.Wakes pc pc') {r : τ}
    (sleeps : pc' r = .readAsleep) : pc r = .readAsleep := by
  rcases wakes r with same | ⟨_, woken⟩
  · rw [← same, sleeps]
  · rw [woken] at sleeps
    cases hpc : pc r <;> rw [hpc] at sleeps <;> cases sleeps

/-- A notice that follows the counters hands the free lock on. -/
theorem handed_of_notice {s : State τ} (counts : Counts s) {notice : Notice}
    {target : Option τ} {pc' : τ → Pc} (delivers : Delivers s.pc notice target pc')
    (signal : s.lock.pending ≠ 0 → notice = .signal)
    (broadcast : s.lock.pending = 0 → s.lock.waiting ≠ 0 → notice = .broadcast)
    (writer : notice = .signal → ReachesWriter s.pc target) :
    (s.lock.pending ≠ 0 → ∃ w, pc' w = .writeAwake) ∧
    (s.lock.pending = 0 → ∀ r, pc' r ≠ .readAsleep) := by
  constructor
  · intro pending
    have sent := signal pending
    subst sent
    cases delivers with
    | signal reaches =>
        have positive : 0 < population Pc.writeWaits s.pc := by
          rw [← counts.pending]
          exact Nat.pos_of_ne_zero pending
        obtain ⟨w, waits⟩ := population_pos.mp positive
        cases hpc : s.pc w with
        | writeAsleep =>
            obtain ⟨v, reached, sleeps⟩ := writer rfl ⟨w, hpc⟩
            subst reached
            cases reaches with
            | one _ _ => exact ⟨v, by simp [Condition.notify, sleeps, bcast, Pc.wake]⟩
        | writeAwake => exact ⟨w, wakes_writeAwake reaches.wakes hpc⟩
        | _ => simp [hpc, Pc.writeWaits] at waits
  · intro none_pending r sleeps
    have asleep := wakes_readAsleep delivers.wakes sleeps
    have waiting : s.lock.waiting ≠ 0 :=
      Nat.pos_iff_ne_zero.mp (counts.pos.2.1 (show (s.pc r).readWaits = true by
        rw [asleep]; rfl))
    have sent := broadcast none_pending waiting
    subst sent
    cases delivers with
    | broadcast =>
        simp [Condition.broadcast, asleep, bcast, Pc.asleep, Pc.wake] at sleeps

omit [Fintype τ] in
/-- A writer that is awake stays so when another thread moves. -/
theorem writer_stays {pc pc' : τ → Pc} (wakes : bcast.Wakes pc pc') {t : τ} {next : Pc}
    (mover : pc t ≠ .writeAwake) (awake : ∃ w, pc w = .writeAwake) :
    ∃ w, update pc' t next w = .writeAwake := by
  obtain ⟨w, here⟩ := awake
  have other : w ≠ t := fun same => mover (same ▸ here)
  refine ⟨w, ?_⟩
  rw [Function.update_of_ne other]
  exact wakes_writeAwake wakes here

omit [Fintype τ] in
/-- The loop of a reader on a free lock: it passes and the lock is shared, or it
sleeps behind a writer that is awake. -/
theorem handed_access {s : State τ} {t : τ} {lock : CondlockT}
    (pending : lock.pending = s.lock.pending) (sharing : lock.sharing = s.lock.sharing)
    (mover : s.pc t ≠ .writeAwake) (handed : Free s → Handed s)
    (free : Free ⟨(accessLoop lock).1, s.mtx, update s.pc t (accessLoop lock).2⟩) :
    Handed ⟨(accessLoop lock).1, s.mtx, update s.pc t (accessLoop lock).2⟩ := by
  obtain ⟨unshared, unlocked⟩ := free
  cases waits : decide (lock.pending ≠ 0) with
  | false =>
      simp only [accessLoop, of_decide_eq_false waits, if_false] at unshared
      cases unshared
  | true =>
      have blocked := of_decide_eq_true waits
      simp only [accessLoop, if_pos blocked] at unshared unlocked ⊢
      have before := handed ⟨sharing ▸ unshared, unlocked⟩
      exact ⟨fun _ => writer_stays (.refl _ _) mover (before.writers (pending ▸ blocked)),
        fun none_pending => absurd none_pending blocked⟩

omit [DecidableEq τ] [Fintype τ] in
/-- A writer that enters its loop on a free lock holds it afterwards. -/
theorem modify_not_free {t : τ} {lock : CondlockT} {pc : τ → Pc} :
    ¬ Free ⟨(modifyLoop lock).1, mtxAfter t (modifyLoop lock).2, pc⟩ := by
  rintro ⟨unshared, unlocked⟩
  unfold modifyLoop at unshared unlocked
  split at unshared
  · rename_i shared
    exact shared unshared
  · rename_i alone
    rw [if_neg alone] at unlocked
    cases unlocked

theorem release_notice {lock : CondlockT} (positive : 0 < lock.sharing)
    (last : lock.sharing - 1 = 0) :
    (lock.pending ≠ 0 → (release lock).2 = .signal) ∧
    (lock.pending = 0 → lock.waiting ≠ 0 → (release lock).2 = .broadcast) := by
  have shared : lock.sharing ≠ 0 := Nat.pos_iff_ne_zero.mp positive
  unfold release
  constructor
  · intro pending
    simp [shared, pending, last]
  · intro none_pending waiting
    simp [shared, none_pending, waiting]

theorem commit_notice (lock : CondlockT) :
    (lock.pending ≠ 0 → commit lock = .signal) ∧
    (lock.pending = 0 → lock.waiting ≠ 0 → commit lock = .broadcast) := by
  unfold commit
  constructor
  · intro pending
    simp [pending]
  · intro none_pending waiting
    simp [none_pending, waiting]

/-- The notice of the last holder hands the lock on. -/
theorem handed_leave {s : State τ} (counts : Counts s) {t : τ} {notice : Notice}
    {target : Option τ} {pc' : τ → Pc} {lock : CondlockT}
    (delivers : Delivers s.pc notice target pc')
    (signal : s.lock.pending ≠ 0 → notice = .signal)
    (broadcast : s.lock.pending = 0 → s.lock.waiting ≠ 0 → notice = .broadcast)
    (writer : notice = .signal → ReachesWriter s.pc target)
    (pending : lock.pending = s.lock.pending) (mover : pc' t ≠ .writeAwake) :
    Handed ⟨lock, none, update pc' t .idle⟩ := by
  obtain ⟨writers, readers⟩ :=
    handed_of_notice counts delivers signal broadcast writer
  constructor
  · intro blocked
    exact writer_stays (.refl _ _) mover (writers (pending ▸ blocked))
  · intro none_pending r
    change update pc' t .idle r ≠ .readAsleep
    by_cases own : r = t
    · subst own
      simp
    · rw [Function.update_of_ne own]
      exact readers (pending ▸ none_pending) r

omit [Fintype τ] in
/-- A thread that does not sleep is not moved by a notice. -/
theorem delivers_still {pc pc' : τ → Pc} {notice : Notice} {target : Option τ}
    (delivers : Delivers pc notice target pc') {t : τ} (here : (pc t).asleep = false) :
    pc' t = pc t := by
  rcases delivers.wakes t with same | ⟨sleeps, _⟩
  · exact same
  · have sleeps : (pc t).asleep = true := sleeps
    rw [here] at sleeps
    cases sleeps

theorem step_handed {s s' : State τ} {e : Event τ} (counts : Counts s)
    (step : Step s e s') (first : WriterFirst s e) (handed : Free s → Handed s)
    (free : Free s') : Handed s' := by
  cases step with
  | access t here _ =>
      exact handed_access rfl rfl (by rw [here]; decide) handed free
  | accessResume t here _ =>
      exact handed_access rfl rfl (by rw [here]; decide) handed free
  | modify t here _ => exact absurd free modify_not_free
  | modifyResume t here _ => exact absurd free modify_not_free
  | release t here unlocked delivers =>
      have positive := counts.pos.1 (show (s.pc t).reads = true by rw [here]; rfl)
      have last : s.lock.sharing - 1 = 0 := by
        have unshared := free.1
        rwa [release_lock positive] at unshared
      obtain ⟨signal, broadcast⟩ := release_notice positive last
      have still := delivers_still delivers (show (s.pc t).asleep = false by rw [here]; rfl)
      rw [unlocked]
      refine handed_leave counts delivers signal broadcast ?_ ?_ ?_
      · intro sent
        rw [sent] at first
        exact first
      · rw [release_lock positive]
      · rw [still, here]
        decide
  | commit t here delivers =>
      obtain ⟨signal, broadcast⟩ := commit_notice s.lock
      have still := delivers_still delivers (show (s.pc t).asleep = false by rw [here]; rfl)
      refine handed_leave counts delivers signal broadcast ?_ rfl ?_
      · intro sent
        rw [sent] at first
        exact first
      · rw [still, here]
        decide
  | spurious t here =>
      have before := handed free
      have wakes := bcast.wakes_notify s.pc here
      constructor
      · intro blocked
        obtain ⟨w, awake⟩ := before.writers blocked
        exact ⟨w, wakes_writeAwake wakes awake⟩
      · intro none_pending r sleeps
        exact before.readers none_pending r (wakes_readAsleep wakes sleeps)

theorem run_handed {trace : List (Event τ)} {s : State τ}
    (run : Run ((system τ).restrict WriterFirst) trace s) :
    Counts s ∧ (Free s → Handed s) := by
  refine Run.invariant (fun _ s => Counts s ∧ (Free s → Handed s)) ?_ ?_ run
  · rintro s rfl
    refine ⟨initial_counts, fun _ => ⟨fun pending => absurd rfl pending, ?_⟩⟩
    intro _ r sleeps
    cases sleeps
  · rintro _ s e s' ⟨counts, handed⟩ ⟨step, first⟩
    exact ⟨step_counts counts step, step_handed counts step first handed⟩

/-- In a run whose signals reach a writer whenever one sleeps: if nobody holds the
lock and some thread sleeps un-notified, another thread has been notified and has
still to retake the mutex and test its loop condition. -/
theorem free_condlock_wakes {trace : List (Event τ)} {s : State τ}
    (run : Run ((system τ).restrict WriterFirst) trace s)
    (noReader : s.lock.sharing = 0) (noWriter : ∀ t, s.pc t ≠ .writing)
    {t : τ} (sleeps : (s.pc t).asleep = true) :
    ∃ u, u ≠ t ∧ (s.pc u).awake = true := by
  obtain ⟨counts, handed⟩ := run_handed run
  have unlocked : s.mtx = none := by
    cases held : s.mtx with
    | none => rfl
    | some w => exact absurd ((counts.owner w).mpr held) (noWriter w)
  have hands := handed ⟨noReader, unlocked⟩
  by_cases pending : s.lock.pending = 0
  · have idle := hands.readers pending t
    have waits : (s.pc t).writeWaits = false := by
      rw [counts.pending] at pending
      exact population_eq_zero.mp pending t
    cases hpc : s.pc t <;> simp_all [Pc.asleep, Pc.writeWaits]
  · obtain ⟨w, awake⟩ := hands.writers pending
    refine ⟨w, ?_, by rw [awake]; rfl⟩
    intro same
    rw [← same, awake] at sleeps
    cases sleeps

/-- A reader, a writer behind it and a reader behind that: the reader's release
signals the writer. -/
theorem free_condlock_wakes_writer :
    ∃ (trace : List (Event (Fin 3))) (s : State (Fin 3)),
      Run ((system (Fin 3)).restrict WriterFirst) trace s ∧
      s.lock.sharing = 0 ∧ (s.pc 2).asleep = true ∧
      ∃ u, u ≠ 2 ∧ (s.pc u).awake = true := by
  have start : Run ((system (Fin 3)).restrict WriterFirst) [] initial := .start rfl
  have shared := start.next ⟨.access 0 rfl rfl, trivial⟩
  have blocked := (shared.next ⟨.modify 1 rfl rfl, trivial⟩).next
    ⟨.access 2 rfl rfl, trivial⟩
  have freed := blocked.next
    ⟨.release 0 rfl rfl (.signal (.one 1 rfl)), fun _ => ⟨1, rfl, rfl⟩⟩
  exact ⟨_, _, freed, rfl, rfl,
    free_condlock_wakes freed rfl (by decide) rfl⟩

/-- The same release, but its signal reaches the second reader: it finds the
writer pending and sleeps again, and nobody is left to wake either of them. -/
theorem condlock_loses_wakeup :
    ¬ ∀ (trace : List (Event (Fin 3))) (s : State (Fin 3)),
      Run (system (Fin 3)) trace s →
      s.lock.sharing = 0 → (∀ t, s.pc t ≠ .writing) →
      ∀ t, (s.pc t).asleep = true → ∃ u, u ≠ t ∧ (s.pc u).awake = true := by
  intro claimed
  have start : Run (system (Fin 3)) [] initial := .start rfl
  have shared := start.next (Step.access 0 rfl rfl)
  have blocked := (shared.next (.modify 1 rfl rfl)).next (.access 2 rfl rfl)
  have freed := blocked.next (.release 0 rfl rfl (.signal (.one 2 rfl)))
  have again := freed.next (.accessResume 2 rfl rfl)
  obtain ⟨u, _, awake⟩ := claimed _ _ again rfl (by decide) 1 rfl
  fin_cases u <;> cases awake

end CprFormal.Thread.CondlockWakeup
