import CprFormal.Events.Model
import CprFormal.Library.Transition

/-!
# An event as a latch

A latch is set, cleared and looked at any number of times.  An event over an `eventfd`
is one as long as it is only cleared when it is set: otherwise the read fails with
`EAGAIN`, which `cpr_clearevt` takes for a fatal error.
-/

namespace CprFormal.Events.Latch

open CprFormal.Library.Transition
open CprFormal.Events.Model

/-- Whether a latch is set after a call. -/
def latch (set : Bool) : Call → Bool
  | .setevt => true
  | .clearevt => false
  | .waitevt => set

/-- An event, and whether it was set since it was made or cleared. -/
structure State where
  evt : EventT Nat
  set : Bool

/-- What `cpr_initevt` makes. -/
def fresh : State := ⟨cprInitevt eventfd, false⟩

def step (s : State) (call : Call) : State :=
  ⟨(perform eventfd s.evt call).1, latch s.set call⟩

/-- The event stays open, and a wait tells whether it is set. -/
structure Latches (s : State) (call : Call) : Prop where
  opened : (step s call).evt.fds ≠ none
  answer : call = .waitevt → ((perform eventfd s.evt call).2 = true ↔ s.set = true)

/-- Only a set event is cleared. -/
def Armed (s : State) (call : Call) : Prop := call = .clearevt → s.set = true

/-- The counter is above zero while the event is set, and has room for the calls to
come. -/
structure Counts (s : State) (count left : Nat) : Prop where
  opened : s.evt = ⟨some count⟩
  set : s.set = true ↔ count ≠ 0
  room : count + left ≤ counterMax

/-- A call is answered as by a latch exactly if it is armed, and then the counter goes
on. -/
theorem step_latches {s : State} {count left : Nat} (counts : Counts s count (left + 1))
    (call : Call) :
    (Latches s call ↔ Armed s call) ∧
    (Armed s call → ∃ count', Counts (step s call) count' left) := by
  obtain ⟨evt, set⟩ := s
  obtain ⟨rfl, same, room⟩ := counts
  dsimp only at same
  cases call with
  | setevt =>
      have performed := eventfd_setevt (show count + 1 ≤ counterMax by omega)
      refine ⟨⟨fun _ => by nofun, fun _ => ⟨?_, by nofun⟩⟩, fun _ => ⟨count + 1, ?_⟩⟩
      · simp [step, performed]
      · exact ⟨by simp [step, performed], by simp [step, latch], by omega⟩
  | clearevt =>
      have performed := eventfd_clearevt count
      by_cases unset : count = 0
      · rw [if_pos unset] at performed
        have never : ¬ Armed ⟨⟨some count⟩, set⟩ .clearevt :=
          fun armed => (same.mp (armed rfl)) unset
        refine ⟨⟨fun latches => ?_, fun armed => absurd armed never⟩,
          fun armed => absurd armed never⟩
        exact absurd (show (step _ .clearevt).evt.fds = none by simp [step, performed])
          latches.opened
      · rw [if_neg unset] at performed
        refine ⟨⟨fun _ _ => same.mpr unset, fun _ => ⟨?_, by nofun⟩⟩, fun _ => ⟨0, ?_⟩⟩
        · simp [step, performed]
        · exact ⟨by simp [step, performed], by simp [step, latch], by omega⟩
  | waitevt =>
      have performed := eventfd_waitevt count
      refine ⟨⟨fun _ => by nofun, fun _ => ⟨?_, fun _ => ?_⟩⟩, fun _ => ⟨count, ?_⟩⟩
      · simp [step, performed]
      · simp [performed, same]
      · exact ⟨by simp [step, performed], same, by omega⟩

/-- An event over an `eventfd` is a latch throughout a run exactly when the run clears
it only while it is set. -/
theorem event_latch_iff (calls : List Call) (bounded : calls.length ≤ counterMax) :
    Throughout step Latches fresh calls ↔ Throughout step Armed fresh calls := by
  refine throughout_congr (fun s rest => ∃ count, Counts s count rest.length)
    (fun s call rest inv armed => ?_) (fun s call rest inv => ?_)
    ⟨0, rfl, by decide, by rwa [Nat.zero_add]⟩
  · obtain ⟨count, counts⟩ := inv
    exact (step_latches counts call).2 armed
  · obtain ⟨count, counts⟩ := inv
    exact (step_latches counts call).1

/-- Set twice, cleared once, and looked at in between. -/
theorem event_latch_iff_cleared :
    Throughout step Latches fresh [.waitevt, .setevt, .setevt, .waitevt, .clearevt, .waitevt] :=
  (event_latch_iff [.waitevt, .setevt, .setevt, .waitevt, .clearevt, .waitevt] (by decide)).mpr
    ⟨by nofun, by nofun, by nofun, by nofun, fun _ => rfl, by nofun, trivial⟩

/-- A fresh event does not stand being cleared. -/
theorem event_latch_freed :
    ¬ ∀ calls : List Call, calls.length ≤ counterMax → Throughout step Latches fresh calls := by
  intro claimed
  exact absurd rfl (claimed [.clearevt] (by decide)).1.opened

end CprFormal.Events.Latch
