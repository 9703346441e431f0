import Mathlib.Logic.Function.Basic
import CprFormal.Library.Transition

/-!
# Data behind a lock

Threads access cells of memory one at a time, reading while they share a lock and writing
while they hold it alone.  Whatever the lock is, if a thread that writes is the only one
inside, the sections of all threads, taken one behind the other in the order in which they
ended, are one run on plain memory.
-/

namespace CprFormal.Library.Guarded

open Function (update)
open CprFormal.Library.Transition

inductive Role where
  | outside
  | reads
  | writes
  deriving DecidableEq, Repr

/-- One access to a cell with the value read or written. -/
inductive Access (κ α : Type) where
  | read (k : κ) (v : α)
  | write (k : κ) (v : α)

variable {κ α : Type} [DecidableEq κ]

/-- The accesses lead from the first contents to the second; every read gets what is there. -/
inductive Serial : (κ → α) → List (Access κ α) → (κ → α) → Prop where
  | start (cells : κ → α) : Serial cells [] cells
  | read {before cells : κ → α} {accesses : List (Access κ α)} (k : κ) :
      Serial before accesses cells → Serial before (accesses ++ [.read k (cells k)]) cells
  | write {before cells : κ → α} {accesses : List (Access κ α)} (k : κ) (v : α) :
      Serial before accesses cells →
        Serial before (accesses ++ [.write k v]) (update cells k v)

theorem Serial.trans {before between after : κ → α} {first second : List (Access κ α)}
    (earlier : Serial before first between) (later : Serial between second after) :
    Serial before (first ++ second) after := by
  induction later with
  | start => rwa [List.append_nil]
  | read k _ ih =>
      rw [← List.append_assoc]
      exact .read k ih
  | write k v _ ih =>
      rw [← List.append_assoc]
      exact .write k v ih

variable {σ ε τ : Type} [DecidableEq τ]

/-- A lock: who makes each of its steps, and what its states let a thread do. -/
structure Lock (σ ε τ : Type) where
  sys : System σ ε
  actor : ε → τ
  role : σ → τ → Role

/-- A thread that writes is alone; a step of the lock lets nobody in or out but the thread
that makes it, which goes in from outside only. -/
structure Lock.Excludes (lock : Lock σ ε τ) (Inv : σ → Prop) : Prop where
  init : ∀ s, lock.sys.init s → Inv s ∧ ∀ t, lock.role s t = .outside
  step : ∀ s e s', Inv s → lock.sys.step s e s' → Inv s'
  alone : ∀ s t u, Inv s → lock.role s t = .writes → lock.role s u ≠ .outside → u = t
  others : ∀ s e s' t, lock.sys.step s e s' → t ≠ lock.actor e → lock.role s' t = lock.role s t
  through : ∀ s e s', lock.sys.step s e s' → lock.role s (lock.actor e) = .outside ∨
    lock.role s' (lock.actor e) = .outside

inductive Event (ε τ κ α : Type) where
  | lock (e : ε)
  | read (t : τ) (k : κ)
  | write (t : τ) (k : κ) (v : α)

/-- The lock and the cells, the accesses of each thread in its present section, and the
sections that have ended. -/
structure State (σ τ κ α : Type) where
  lock : σ
  cells : κ → α
  present : τ → List (Access κ α)
  ended : List (List (Access κ α))

/-- A step of the lock ends the section of the thread that goes out by it. -/
def afterLock (lock : Lock σ ε τ) (g : State σ τ κ α) (e : ε) (s' : σ) : State σ τ κ α :=
  if lock.role g.lock (lock.actor e) ≠ .outside ∧ lock.role s' (lock.actor e) = .outside then
    { g with
      lock := s'
      present := update g.present (lock.actor e) []
      ended := g.ended ++ [g.present (lock.actor e)] }
  else { g with lock := s' }

inductive Step (lock : Lock σ ε τ) : State σ τ κ α → Event ε τ κ α → State σ τ κ α → Prop where
  | lock {g : State σ τ κ α} {e : ε} {s' : σ} (step : lock.sys.step g.lock e s') :
      Step lock g (.lock e) (afterLock lock g e s')
  | read {g : State σ τ κ α} (t : τ) (k : κ) (inside : lock.role g.lock t ≠ .outside) :
      Step lock g (.read t k)
        { g with present := update g.present t (g.present t ++ [.read k (g.cells k)]) }
  | write {g : State σ τ κ α} (t : τ) (k : κ) (v : α)
      (inside : lock.role g.lock t = .writes) :
      Step lock g (.write t k v)
        { g with
          cells := update g.cells k v
          present := update g.present t (g.present t ++ [.write k v]) }

/-- Threads that access cells behind a lock. -/
def guarded (lock : Lock σ ε τ) (cells : κ → α) : System (State σ τ κ α) (Event ε τ κ α) where
  init g := lock.sys.init g.lock ∧ g.cells = cells ∧ (∀ t, g.present t = []) ∧ g.ended = []
  step := Step lock

/-- What the sections come to.  The contents that the ended ones have left are those that
every reader inside reads, and where a writer inside started. -/
structure Sections (lock : Lock σ ε τ) (start : κ → α) (g : State σ τ κ α) (left : κ → α) :
    Prop where
  serial : Serial start g.ended.flatten left
  reads : ∀ t, lock.role g.lock t = .reads → Serial left (g.present t) left
  writes : ∀ t, lock.role g.lock t = .writes → Serial left (g.present t) g.cells
  calm : (∀ t, lock.role g.lock t ≠ .writes) → g.cells = left
  outside : ∀ t, lock.role g.lock t = .outside → g.present t = []

section Steps

variable {lock : Lock σ ε τ} {Inv : σ → Prop} {start left : κ → α} {g : State σ τ κ α}

omit [DecidableEq κ] [DecidableEq τ] in
/-- Besides a thread that does not write, nobody does if that thread is inside. -/
theorem no_writer (excludes : lock.Excludes Inv) (inv : Inv g.lock) {t : τ}
    (inside : lock.role g.lock t = .reads) (u : τ) : lock.role g.lock u ≠ .writes := by
  intro writes
  have same := excludes.alone g.lock u t inv writes (by rw [inside]; exact Role.noConfusion)
  rw [← same, inside] at writes
  cases writes

omit [DecidableEq κ] [DecidableEq τ] in
/-- Nobody else has changed between being inside and outside. -/
theorem others_role (excludes : lock.Excludes Inv) {e : ε} {s' : σ} {t : τ}
    (step : lock.sys.step g.lock e s') (other : t ≠ lock.actor e) {role : Role}
    (here : lock.role s' t = role) : lock.role g.lock t = role :=
  (excludes.others g.lock e s' t step other).symm.trans here

/-- Behind the end of a section nobody outside is in one. -/
theorem left_empty (excludes : lock.Excludes Inv) (sections : Sections lock start g left) {e : ε}
    {s' : σ} (step : lock.sys.step g.lock e s') {t : τ} (here : lock.role s' t = .outside) :
    update g.present (lock.actor e) [] t = [] := by
  by_cases own : t = lock.actor e
  · rw [own, Function.update_self]
  · rw [Function.update_of_ne own]
    exact sections.outside t (others_role excludes step own here)

/-- The section of a reader ends. -/
theorem reader_leaves (excludes : lock.Excludes Inv) (inv : Inv g.lock)
    (sections : Sections lock start g left) {e : ε} {s' : σ}
    (step : lock.sys.step g.lock e s') (read : lock.role g.lock (lock.actor e) = .reads)
    (gone : lock.role s' (lock.actor e) = .outside) :
    Sections lock start
      ⟨s', g.cells, update g.present (lock.actor e) [],
        g.ended ++ [g.present (lock.actor e)]⟩ left where
  serial := by
    rw [List.flatten_append, List.flatten_singleton]
    exact sections.serial.trans (sections.reads _ read)
  reads t here := by
    have other : t ≠ lock.actor e := fun same => by
      rw [same, gone] at here
      cases here
    dsimp only
    rw [Function.update_of_ne other]
    exact sections.reads t (others_role excludes step other here)
  writes t here := by
    have other : t ≠ lock.actor e := fun same => by
      rw [same, gone] at here
      cases here
    exact absurd (others_role excludes step other here) (no_writer excludes inv read t)
  calm _ := sections.calm fun t => no_writer excludes inv read t
  outside _ := left_empty excludes sections step

/-- The section of a writer ends; what it has written is what the others find. -/
theorem writer_leaves (excludes : lock.Excludes Inv) (inv : Inv g.lock)
    (sections : Sections lock start g left) {e : ε} {s' : σ}
    (step : lock.sys.step g.lock e s') (wrote : lock.role g.lock (lock.actor e) = .writes)
    (gone : lock.role s' (lock.actor e) = .outside) :
    Sections lock start
      ⟨s', g.cells, update g.present (lock.actor e) [],
        g.ended ++ [g.present (lock.actor e)]⟩ g.cells := by
  have nobody {t : τ} {role : Role} (inside : role ≠ .outside) : lock.role s' t ≠ role := by
    intro here
    have other : t ≠ lock.actor e := fun same => by
      rw [same, gone] at here
      exact inside here.symm
    have before := others_role excludes step other here
    exact other (excludes.alone g.lock _ t inv wrote (before.symm ▸ inside))
  refine ⟨?_, fun t here => absurd here (nobody Role.noConfusion),
    fun t here => absurd here (nobody Role.noConfusion), fun _ => rfl,
    fun _ => left_empty excludes sections step⟩
  rw [List.flatten_append, List.flatten_singleton]
  exact sections.serial.trans (sections.writes _ wrote)

/-- A step that ends no section begins one at most. -/
theorem enters (excludes : lock.Excludes Inv) (inv : Inv g.lock)
    (sections : Sections lock start g left) {e : ε} {s' : σ}
    (step : lock.sys.step g.lock e s') (away : lock.role g.lock (lock.actor e) = .outside) :
    Sections lock start { g with lock := s' } left := by
  have empty := sections.outside _ away
  refine ⟨sections.serial, fun t here => ?_, fun t here => ?_, fun none_writes => ?_,
    fun t here => ?_⟩
  · by_cases own : t = lock.actor e
    · rw [own]
      dsimp only
      rw [empty]
      exact .start left
    · exact sections.reads t (others_role excludes step own here)
  · by_cases own : t = lock.actor e
    · rw [own] at here ⊢
      dsimp only at here ⊢
      have unwritten : g.cells = left := by
        refine sections.calm fun u writes => ?_
        have other : u ≠ lock.actor e := fun same => by
          rw [same, away] at writes
          cases writes
        have still := (excludes.others g.lock e s' u step other).trans writes
        have inside : lock.role s' u ≠ .outside := by
          rw [still]
          exact Role.noConfusion
        exact other (excludes.alone s' _ u (excludes.step g.lock e s' inv step) here inside)
      rw [empty, unwritten]
      exact .start left
    · exact sections.writes t (others_role excludes step own here)
  · refine sections.calm fun t writes => ?_
    have other : t ≠ lock.actor e := fun same => by
      rw [same, away] at writes
      cases writes
    exact none_writes t ((excludes.others g.lock e s' t step other).trans writes)
  · by_cases own : t = lock.actor e
    · rw [own]
      exact empty
    · exact sections.outside t (others_role excludes step own here)

theorem lock_sections (excludes : lock.Excludes Inv) (inv : Inv g.lock)
    (sections : Sections lock start g left) {e : ε} {s' : σ}
    (step : lock.sys.step g.lock e s') :
    ∃ left', Sections lock start (afterLock lock g e s') left' := by
  unfold afterLock
  split
  · next ends =>
      cases role : lock.role g.lock (lock.actor e) with
      | outside => exact absurd role ends.1
      | reads => exact ⟨left, reader_leaves excludes inv sections step role ends.2⟩
      | writes => exact ⟨g.cells, writer_leaves excludes inv sections step role ends.2⟩
  · next stays =>
      have away : lock.role g.lock (lock.actor e) = .outside := by
        by_contra inside
        rcases excludes.through g.lock e s' step with outside | gone
        · exact inside outside
        · exact stays ⟨inside, gone⟩
      exact ⟨left, enters excludes inv sections step away⟩

theorem read_sections (excludes : lock.Excludes Inv) (inv : Inv g.lock)
    (sections : Sections lock start g left) {t : τ} (k : κ)
    (inside : lock.role g.lock t ≠ .outside) :
    Sections lock start
      { g with present := update g.present t (g.present t ++ [.read k (g.cells k)]) } left where
  serial := sections.serial
  reads u here := by
    dsimp only
    by_cases own : u = t
    · rw [own] at here ⊢
      rw [Function.update_self, sections.calm fun v => no_writer excludes inv here v]
      exact (sections.reads t here).read k
    · rw [Function.update_of_ne own]
      exact sections.reads u here
  writes u here := by
    dsimp only
    by_cases own : u = t
    · rw [own] at here ⊢
      rw [Function.update_self]
      exact (sections.writes t here).read k
    · rw [Function.update_of_ne own]
      exact sections.writes u here
  calm := sections.calm
  outside u here := by
    have other : u ≠ t := fun same => inside (same ▸ here)
    dsimp only
    rw [Function.update_of_ne other]
    exact sections.outside u here

theorem write_sections (excludes : lock.Excludes Inv) (inv : Inv g.lock)
    (sections : Sections lock start g left) {t : τ} (k : κ) (v : α)
    (inside : lock.role g.lock t = .writes) :
    Sections lock start
      { g with
        cells := update g.cells k v
        present := update g.present t (g.present t ++ [.write k v]) } left where
  serial := sections.serial
  reads u here := absurd inside (no_writer excludes inv here t)
  writes u here := by
    have own : u = t := excludes.alone g.lock t u inv inside (by
      rw [here]
      exact Role.noConfusion)
    dsimp only
    rw [own, Function.update_self]
    exact (sections.writes t inside).write k v
  calm none_writes := absurd inside (none_writes t)
  outside u here := by
    have other : u ≠ t := fun same => by
      rw [same] at here
      cases inside.symm.trans here
    dsimp only
    rw [Function.update_of_ne other]
    exact sections.outside u here

/-- Every run has the sections of a serial one. -/
theorem run_sections (excludes : lock.Excludes Inv) {trace : List (Event ε τ κ α)}
    (run : Run (guarded lock start) trace g) : ∃ left, Sections lock start g left := by
  suffices Inv g.lock ∧ ∃ left, Sections lock start g left from this.2
  refine run.invariant (fun _ g => Inv g.lock ∧ ∃ left, Sections lock start g left) ?_ ?_
  · rintro g ⟨init, cells, present, ended⟩
    obtain ⟨inv, away⟩ := excludes.init g.lock init
    refine ⟨inv, start, ?_, fun t here => ?_, fun t here => ?_, fun _ => cells, fun t _ => present t⟩
    · rw [ended]
      exact .start start
    · cases (away t).symm.trans here
    · cases (away t).symm.trans here
  · rintro trace g e g' ⟨inv, left, sections⟩ step
    cases step with
    | @lock e s' step =>
        have kept : Inv (afterLock lock g e s').lock := by
          unfold afterLock
          split
          · exact excludes.step g.lock e s' inv step
          · exact excludes.step g.lock e s' inv step
        exact ⟨kept, lock_sections excludes inv sections step⟩
    | read t k inside => exact ⟨inv, left, read_sections excludes inv sections k inside⟩
    | write t k v inside => exact ⟨inv, left, write_sections excludes inv sections k v inside⟩

end Steps

end CprFormal.Library.Guarded
