import CprFormal.Library.Population
import CprFormal.Library.Transition

/-!
# The condition lock of `thread.c`

Readers and writers share one mutex and one condition variable.  A critical
section of `cor_condlock_access`, `cpr_condlock_release`, `cpr_condlock_modify`
or `cpr_condlock_commit` is one step; it ends where the thread unlocks, enters
`cnd_wait`, or returns from `cpr_condlock_modify` with the mutex still held.

The counters of the code are `unsigned` and natural numbers here.  Each of them counts
threads, so that it never wraps as long as there are fewer than 2^32 threads.
-/

namespace CprFormal.Thread.Condlock

open Function (update)
open CprFormal.Library.Monitor CprFormal.Library.Population CprFormal.Library.Transition

/-- The counters of `cpr_condlock_t`. -/
structure CondlockT where
  pending : Nat
  waiting : Nat
  sharing : Nat
  deriving DecidableEq, Repr

/-- Where a thread stands between two critical sections.  `...Awake` has been
notified and must retake the mutex and test its loop condition again. -/
inductive Pc where
  | idle
  | readAsleep
  | readAwake
  | reading
  | writeAsleep
  | writeAwake
  | writing
  deriving DecidableEq, Repr

namespace Pc

def asleep : Pc → Bool
  | readAsleep | writeAsleep => true
  | _ => false

def wake : Pc → Pc
  | readAsleep => readAwake
  | writeAsleep => writeAwake
  | pc => pc

/-- Notified in `cnd_wait` and not yet resumed. -/
def awake : Pc → Bool
  | readAwake | writeAwake => true
  | _ => false

/-- A reader inside `cnd_wait`, notified or not. -/
def readWaits : Pc → Bool
  | readAsleep | readAwake => true
  | _ => false

/-- A writer inside `cnd_wait`, notified or not. -/
def writeWaits : Pc → Bool
  | writeAsleep | writeAwake => true
  | _ => false

def reads : Pc → Bool
  | reading => true
  | _ => false

end Pc

/-- The condition variable both kinds of threads sleep on. -/
def bcast : Condition Pc := ⟨Pc.asleep, Pc.wake⟩

/-- The loop of `cor_condlock_access` by the owner of the mutex. -/
def accessLoop (lock : CondlockT) : CondlockT × Pc :=
  if lock.pending ≠ 0 then ({ lock with waiting := lock.waiting + 1 }, .readAsleep)
  else ({ lock with sharing := lock.sharing + 1 }, .reading)

/-- The loop of `cpr_condlock_modify` by the owner of the mutex. -/
def modifyLoop (lock : CondlockT) : CondlockT × Pc :=
  if lock.sharing ≠ 0 then ({ lock with pending := lock.pending + 1 }, .writeAsleep)
  else (lock, .writing)

/-- `--lock->waiting` when `cnd_wait` has returned. -/
def CondlockT.readerBack (lock : CondlockT) : CondlockT :=
  { lock with waiting := lock.waiting - 1 }

/-- `--lock->pending` when `cnd_wait` has returned. -/
def CondlockT.writerBack (lock : CondlockT) : CondlockT :=
  { lock with pending := lock.pending - 1 }

/-- What a critical section does to the condition variable on its way out. -/
inductive Notice where
  | nothing
  | signal
  | broadcast
  deriving DecidableEq, Repr

/-- `cpr_condlock_release` between lock and unlock. -/
def release (lock : CondlockT) : CondlockT × Notice :=
  if lock.sharing ≠ 0 then
    let lock := { lock with sharing := lock.sharing - 1 }
    if lock.pending ≠ 0 ∧ lock.sharing = 0 then (lock, .signal)
    else if lock.waiting ≠ 0 ∧ lock.pending = 0 then (lock, .broadcast)
    else (lock, .nothing)
  else (lock, .nothing)

/-- `cpr_condlock_commit` before its unlock. -/
def commit (lock : CondlockT) : Notice :=
  if lock.pending ≠ 0 then .signal
  else if lock.waiting ≠ 0 then .broadcast
  else .nothing

variable {τ : Type} [DecidableEq τ]

/-- How a notice reaches the sleepers; `target` is the thread a signal wakes. -/
inductive Delivers (pc : τ → Pc) : Notice → Option τ → (τ → Pc) → Prop where
  | nothing : Delivers pc .nothing none pc
  | signal {target : Option τ} {pc' : τ → Pc} :
      bcast.SignalTo pc target pc' → Delivers pc .signal target pc'
  | broadcast : Delivers pc .broadcast none (bcast.broadcast pc)

inductive Event (τ : Type) where
  | access (t : τ)
  | modify (t : τ)
  | resume (t : τ)
  | release (t : τ) (notice : Notice) (target : Option τ)
  | commit (t : τ) (notice : Notice) (target : Option τ)
  | spurious (t : τ)

structure State (τ : Type) where
  lock : CondlockT
  mtx : Option τ
  pc : τ → Pc

/-- `cpr_condlock_modify` returns with the mutex held. -/
def mtxAfter (t : τ) : Pc → Option τ
  | .writing => some t
  | _ => none

inductive Step : State τ → Event τ → State τ → Prop where
  | access {s : State τ} (t : τ) (here : s.pc t = .idle) (free : s.mtx = none) :
      Step s (.access t)
        { s with
          lock := (accessLoop s.lock).1
          pc := update s.pc t (accessLoop s.lock).2 }
  | accessResume {s : State τ} (t : τ) (here : s.pc t = .readAwake) (free : s.mtx = none) :
      Step s (.resume t)
        { s with
          lock := (accessLoop s.lock.readerBack).1
          pc := update s.pc t (accessLoop s.lock.readerBack).2 }
  | modify {s : State τ} (t : τ) (here : s.pc t = .idle) (free : s.mtx = none) :
      Step s (.modify t)
        { lock := (modifyLoop s.lock).1
          mtx := mtxAfter t (modifyLoop s.lock).2
          pc := update s.pc t (modifyLoop s.lock).2 }
  | modifyResume {s : State τ} (t : τ) (here : s.pc t = .writeAwake) (free : s.mtx = none) :
      Step s (.resume t)
        { lock := (modifyLoop s.lock.writerBack).1
          mtx := mtxAfter t (modifyLoop s.lock.writerBack).2
          pc := update s.pc t (modifyLoop s.lock.writerBack).2 }
  | release {s : State τ} (t : τ) {target : Option τ} {pc' : τ → Pc}
      (here : s.pc t = .reading) (free : s.mtx = none)
      (delivers : Delivers s.pc (release s.lock).2 target pc') :
      Step s (.release t (release s.lock).2 target)
        { s with lock := (release s.lock).1, pc := update pc' t .idle }
  | commit {s : State τ} (t : τ) {target : Option τ} {pc' : τ → Pc}
      (here : s.pc t = .writing)
      (delivers : Delivers s.pc (commit s.lock) target pc') :
      Step s (.commit t (commit s.lock) target)
        { s with mtx := none, pc := update pc' t .idle }
  | spurious {s : State τ} (t : τ) (here : bcast.asleep (s.pc t) = true) :
      Step s (.spurious t) { s with pc := bcast.notify s.pc t }

/-- `cor_condlock_init`, with no thread inside a call. -/
def initial : State τ where
  lock := ⟨0, 0, 0⟩
  mtx := none
  pc := fun _ => .idle

/-- All threads of type `τ` working on one condition lock. -/
def system (τ : Type) [DecidableEq τ] : System (State τ) (Event τ) where
  init s := s = initial
  step := Step

/-! ## The counters count the threads -/

theorem Delivers.wakes {pc pc' : τ → Pc} {notice : Notice} {target : Option τ}
    (delivers : Delivers pc notice target pc') : bcast.Wakes pc pc' := by
  cases delivers with
  | nothing => exact .refl _ _
  | signal signal => exact signal.wakes
  | broadcast => exact bcast.wakes_broadcast pc

theorem reads_wake (pc : Pc) (_ : bcast.asleep pc = true) :
    (bcast.wake pc).reads = pc.reads := by
  cases pc <;> rfl

theorem readWaits_wake (pc : Pc) (_ : bcast.asleep pc = true) :
    (bcast.wake pc).readWaits = pc.readWaits := by
  cases pc <;> rfl

theorem writeWaits_wake (pc : Pc) (_ : bcast.asleep pc = true) :
    (bcast.wake pc).writeWaits = pc.writeWaits := by
  cases pc <;> rfl

variable [Fintype τ]

/-- Each counter is the number of threads it is about, and the mutex is held
between critical sections exactly by a writer that has not committed. -/
structure Counts (s : State τ) : Prop where
  sharing : s.lock.sharing = population Pc.reads s.pc
  waiting : s.lock.waiting = population Pc.readWaits s.pc
  pending : s.lock.pending = population Pc.writeWaits s.pc
  owner : ∀ t, s.pc t = .writing ↔ s.mtx = some t

omit [DecidableEq τ] in
/-- With fewer threads than an `unsigned` can count no counter wraps. -/
theorem Counts.unwrapped {s : State τ} (counts : Counts s) (few : Fintype.card τ < 2 ^ 32) :
    s.lock.sharing < 2 ^ 32 ∧ s.lock.waiting < 2 ^ 32 ∧ s.lock.pending < 2 ^ 32 := by
  rw [counts.sharing, counts.waiting, counts.pending]
  exact ⟨Nat.lt_of_le_of_lt (population_le_card _ _) few,
    Nat.lt_of_le_of_lt (population_le_card _ _) few,
    Nat.lt_of_le_of_lt (population_le_card _ _) few⟩

/-- The populations after thread `t` has moved to `next` and others were woken. -/
theorem populations_move {pc pc' : τ → Pc} (wakes : bcast.Wakes pc pc') (t : τ) (next : Pc) :
    population Pc.reads (update pc' t next) + (pc t).reads.toNat =
      population Pc.reads pc + next.reads.toNat ∧
    population Pc.readWaits (update pc' t next) + (pc t).readWaits.toNat =
      population Pc.readWaits pc + next.readWaits.toNat ∧
    population Pc.writeWaits (update pc' t next) + (pc t).writeWaits.toNat =
      population Pc.writeWaits pc + next.writeWaits.toNat :=
  ⟨population_move reads_wake wakes t next, population_move readWaits_wake wakes t next,
    population_move writeWaits_wake wakes t next⟩

/-- The counters of `lock` after the move of `t` to `next` are the populations. -/
theorem counters_move {pc pc' : τ → Pc} (wakes : bcast.Wakes pc pc') {t : τ} {next : Pc}
    {before after : CondlockT}
    (sharing : before.sharing = population Pc.reads pc)
    (waiting : before.waiting = population Pc.readWaits pc)
    (pending : before.pending = population Pc.writeWaits pc)
    (sharing' : after.sharing + (pc t).reads.toNat = before.sharing + next.reads.toNat)
    (waiting' : after.waiting + (pc t).readWaits.toNat =
      before.waiting + next.readWaits.toNat)
    (pending' : after.pending + (pc t).writeWaits.toNat =
      before.pending + next.writeWaits.toNat) :
    after.sharing = population Pc.reads (update pc' t next) ∧
    after.waiting = population Pc.readWaits (update pc' t next) ∧
    after.pending = population Pc.writeWaits (update pc' t next) := by
  obtain ⟨reads, readWaits, writeWaits⟩ := populations_move wakes t next
  omega

omit [Fintype τ] in
/-- The mutex after a critical section of `t` that leaves it at `next`. -/
theorem owner_move {pc pc' : τ → Pc} (wakes : bcast.Wakes pc pc') {mtx : Option τ} {t : τ}
    (next : Pc) (owner : ∀ u, pc u = .writing ↔ mtx = some u)
    (entered : mtx = none ∨ mtx = some t) (u : τ) :
    update pc' t next u = .writing ↔ mtxAfter t next = some u := by
  by_cases own : u = t
  · subst own
    rw [Function.update_self]
    cases next <;> simp [mtxAfter]
  · have unheld : mtx ≠ some u := by
      rcases entered with free | held
      · simp [free]
      · rw [held]
        exact fun same => own (Option.some.inj same).symm
    have other : pc' u ≠ .writing := by
      intro writes
      rcases wakes u with same | ⟨_, woken⟩
      · exact unheld ((owner u).mp (same ▸ writes))
      · rw [woken] at writes
        cases hpc : pc u <;> rw [hpc] at writes <;> cases writes
        exact unheld ((owner u).mp hpc)
    rw [Function.update_of_ne own]
    have apart : mtxAfter t next ≠ some u := by
      cases next <;> simp [mtxAfter]
      exact fun same => own same.symm
    simp [other, apart]

omit [DecidableEq τ] in
/-- A waiting reader keeps `waiting` positive, and likewise for the others. -/
theorem Counts.pos {s : State τ} (counts : Counts s) {t : τ} :
    ((s.pc t).reads = true → 0 < s.lock.sharing) ∧
    ((s.pc t).readWaits = true → 0 < s.lock.waiting) ∧
    ((s.pc t).writeWaits = true → 0 < s.lock.pending) := by
  rw [counts.sharing, counts.waiting, counts.pending]
  exact ⟨fun here => population_pos.mpr ⟨t, here⟩, fun here => population_pos.mpr ⟨t, here⟩,
    fun here => population_pos.mpr ⟨t, here⟩⟩

/-- A critical section of `t` keeps the counters and the mutex in step. -/
theorem Counts.move {s : State τ} {pc' : τ → Pc} (wakes : bcast.Wakes s.pc pc') {t : τ}
    {next : Pc} {after : CondlockT} {mtx : Option τ} (counts : Counts s)
    (entered : s.mtx = none ∨ s.mtx = some t) (left : mtx = mtxAfter t next)
    (sharing : after.sharing + (s.pc t).reads.toNat = s.lock.sharing + next.reads.toNat)
    (waiting : after.waiting + (s.pc t).readWaits.toNat =
      s.lock.waiting + next.readWaits.toNat)
    (pending : after.pending + (s.pc t).writeWaits.toNat =
      s.lock.pending + next.writeWaits.toNat) :
    Counts ⟨after, mtx, update pc' t next⟩ := by
  subst left
  obtain ⟨reads, readWaits, writeWaits⟩ := counters_move wakes counts.sharing
    counts.waiting counts.pending sharing waiting pending
  exact ⟨reads, readWaits, writeWaits, owner_move wakes next counts.owner entered⟩

/-- A release by a holder gives one share back. -/
theorem release_lock {lock : CondlockT} (positive : 0 < lock.sharing) :
    (release lock).1 = { lock with sharing := lock.sharing - 1 } := by
  unfold release
  rw [if_pos (Nat.pos_iff_ne_zero.mp positive)]
  dsimp only
  split
  · rfl
  · split <;> rfl

omit [DecidableEq τ] [Fintype τ] in
theorem accessLoop_mtx (t : τ) (lock : CondlockT) : mtxAfter t (accessLoop lock).2 = none := by
  unfold accessLoop
  split <;> rfl

theorem step_counts {s s' : State τ} {e : Event τ} (counts : Counts s)
    (step : Step s e s') : Counts s' := by
  cases step with
  | access t here free =>
      have left : s.mtx = mtxAfter t (accessLoop s.lock).2 := by rw [accessLoop_mtx, free]
      apply Counts.move (.refl _ _) counts (.inl free) left <;>
        rw [here] <;> unfold accessLoop <;> split <;>
        simp [Pc.reads, Pc.readWaits, Pc.writeWaits]
  | accessResume t here free =>
      have positive := counts.pos.2.1 (show (s.pc t).readWaits = true by rw [here]; rfl)
      have left : s.mtx = mtxAfter t (accessLoop s.lock.readerBack).2 := by
        rw [accessLoop_mtx, free]
      apply Counts.move (.refl _ _) counts (.inl free) left <;>
        rw [here] <;> unfold accessLoop CondlockT.readerBack <;> split <;>
        simp [Pc.reads, Pc.readWaits, Pc.writeWaits] <;> omega
  | modify t here free =>
      apply Counts.move (.refl _ _) counts (.inl free) rfl <;>
        rw [here] <;> unfold modifyLoop <;> split <;>
        simp [Pc.reads, Pc.readWaits, Pc.writeWaits]
  | modifyResume t here free =>
      have positive := counts.pos.2.2 (show (s.pc t).writeWaits = true by rw [here]; rfl)
      apply Counts.move (.refl _ _) counts (.inl free) rfl <;>
        rw [here] <;> unfold modifyLoop CondlockT.writerBack <;> split <;>
        simp [Pc.reads, Pc.readWaits, Pc.writeWaits] <;> omega
  | release t here free delivers =>
      have positive := counts.pos.1 (show (s.pc t).reads = true by rw [here]; rfl)
      apply Counts.move delivers.wakes counts (.inl free) free <;>
        rw [here, release_lock positive] <;>
        simp [Pc.reads, Pc.readWaits, Pc.writeWaits]
      omega
  | commit t here delivers =>
      have left : none = mtxAfter t .idle := rfl
      apply Counts.move delivers.wakes counts (.inr ((counts.owner t).mp here)) left <;>
        rw [here] <;> rfl
  | spurious t here =>
      have wakes := bcast.wakes_notify s.pc here
      refine ⟨?_, ?_, ?_, ?_⟩
      · rw [population_wakes reads_wake wakes]
        exact counts.sharing
      · rw [population_wakes readWaits_wake wakes]
        exact counts.waiting
      · rw [population_wakes writeWaits_wake wakes]
        exact counts.pending
      · intro u
        rw [← counts.owner u]
        change bcast.notify s.pc t u = .writing ↔ s.pc u = .writing
        rcases wakes u with same | ⟨sleeps, woken⟩
        · rw [same]
        · rw [woken]
          cases hpc : s.pc u <;> rw [hpc] at sleeps <;> cases sleeps <;> decide

omit [DecidableEq τ] in
theorem initial_counts : Counts (initial : State τ) where
  sharing := (population_eq_zero.mpr fun _ => rfl).symm
  waiting := (population_eq_zero.mpr fun _ => rfl).symm
  pending := (population_eq_zero.mpr fun _ => rfl).symm
  owner t := by simp [initial]

end CprFormal.Thread.Condlock
