import CprFormal.Events.Model
import CprFormal.Library.Transition

/-!
# The two builds of an event

A clear empties the counter of an `eventfd` at once and takes only 64 bytes from a
pipe.  The bytes it leaves are seen by the next wait or clear, unless a set comes
before it, which makes the counter agree again.
-/

namespace CprFormal.Events.Builds

open CprFormal.Library.Transition
open CprFormal.Events.Model

/-- The same event in both builds. -/
structure State where
  counter : EventT Nat
  bytes : EventT (List UInt8)

/-- What `cpr_initevt` makes. -/
def fresh (capacity : Nat) : State := ⟨cprInitevt eventfd, cprInitevt (pipe capacity)⟩

def step (capacity : Nat) (s : State) (call : Call) : State :=
  ⟨(perform eventfd s.counter call).1, (perform (pipe capacity) s.bytes call).1⟩

/-- A call returns the same in both builds. -/
def Agree (capacity : Nat) (s : State) (call : Call) : Prop :=
  (perform eventfd s.counter call).2 = (perform (pipe capacity) s.bytes call).2

instance (capacity : Nat) (s : State) (call : Call) : Decidable (Agree capacity s call) :=
  inferInstanceAs (Decidable (_ = _))

/-- Unless the call is a set, no clear has left bytes behind that no set has come
after. -/
def Drained (s : State) (call : Call) : Prop :=
  call ≠ .setevt → s.counter.fds = some 0 → s.bytes.fds = some []

/-- The number of sets among the calls. -/
def sets (calls : List Call) : Nat := calls.count .setevt

/-- Both events are freed, or there is at least one byte for a counter above zero and
room for the sets to come. -/
inductive Related (capacity : Nat) (s : State) (left : Nat) : Prop where
  | freed (counter : s.counter = ⟨none⟩) (bytes : s.bytes = ⟨none⟩)
  | opened (count : Nat) (queue : List UInt8) (counter : s.counter = ⟨some count⟩)
      (bytes : s.bytes = ⟨some queue⟩) (behind : count ≤ queue.length)
      (room : queue.length + left ≤ capacity) (below : count + left ≤ counterMax)

/-- Two open events agree on a set. -/
theorem set_related {capacity count left : Nat} {queue : List UInt8}
    (behind : count ≤ queue.length) (room : queue.length + (left + 1) ≤ capacity)
    (below : count + (left + 1) ≤ counterMax) :
    Agree capacity ⟨⟨some count⟩, ⟨some queue⟩⟩ .setevt ∧
    Related capacity (step capacity ⟨⟨some count⟩, ⟨some queue⟩⟩ .setevt) left := by
  have counted := eventfd_setevt (show count + 1 ≤ counterMax by omega)
  have appended := pipe_setevt (show queue.length < capacity by omega)
  refine ⟨?_, .opened (count + 1) (queue ++ [120]) ?_ ?_ ?_ ?_ (by omega)⟩
  · simp [Agree, counted, appended]
  · simp [step, counted]
  · simp [step, appended]
  · simp
    omega
  · simp
    omega

/-- Two open events agree on a clear if none or both of them are set. -/
theorem clear_related {capacity count left : Nat} {queue : List UInt8}
    (behind : count ≤ queue.length) (room : queue.length + left ≤ capacity)
    (below : left ≤ counterMax) :
    (Agree capacity ⟨⟨some count⟩, ⟨some queue⟩⟩ .clearevt ↔ (count = 0 → queue = [])) ∧
    ((count = 0 → queue = []) →
      Related capacity (step capacity ⟨⟨some count⟩, ⟨some queue⟩⟩ .clearevt) left) := by
  have counted := eventfd_clearevt count
  have taken := pipe_clearevt capacity queue
  by_cases empty : queue = []
  · have unset : count = 0 := by
      rw [empty] at behind
      exact Nat.le_zero.mp behind
    rw [if_pos unset] at counted
    rw [if_pos empty] at taken
    have agree : Agree capacity ⟨⟨some count⟩, ⟨some queue⟩⟩ .clearevt := by
      unfold Agree
      rw [counted, taken]
    refine ⟨⟨fun _ _ => empty, fun _ => agree⟩, fun _ => .freed ?_ ?_⟩
    · simp [step, counted]
    · simp [step, taken]
  · rw [if_neg empty] at taken
    by_cases unset : count = 0
    · rw [if_pos unset] at counted
      have differ : ¬ Agree capacity ⟨⟨some count⟩, ⟨some queue⟩⟩ .clearevt := by
        unfold Agree
        rw [counted, taken]
        exact Bool.false_ne_true
      refine ⟨⟨fun agree => absurd agree differ, fun both => ?_⟩, fun both => ?_⟩
      · exact absurd (both unset) empty
      · exact absurd (both unset) empty
    · rw [if_neg unset] at counted
      have agree : Agree capacity ⟨⟨some count⟩, ⟨some queue⟩⟩ .clearevt := by
        unfold Agree
        rw [counted, taken]
      refine ⟨⟨fun _ zero => absurd zero unset, fun _ => agree⟩, fun _ => ?_⟩
      refine .opened 0 (queue.drop 64) ?_ ?_ (Nat.zero_le _) ?_ (by omega)
      · simp [step, counted]
      · simp [step, taken]
      · rw [List.length_drop]
        omega

/-- Two open events agree on a wait if none or both of them are set. -/
theorem wait_related {capacity count left : Nat} {queue : List UInt8}
    (behind : count ≤ queue.length) (room : queue.length + left ≤ capacity)
    (below : count + left ≤ counterMax) :
    (Agree capacity ⟨⟨some count⟩, ⟨some queue⟩⟩ .waitevt ↔ (count = 0 → queue = [])) ∧
    Related capacity (step capacity ⟨⟨some count⟩, ⟨some queue⟩⟩ .waitevt) left := by
  have counted := eventfd_waitevt count
  have seen := pipe_waitevt capacity queue
  have only (empty : queue = []) : count = 0 := by
    rw [empty] at behind
    exact Nat.le_zero.mp behind
  refine ⟨?_, .opened count queue ?_ ?_ behind room below⟩
  · unfold Agree
    rw [counted, seen]
    dsimp only
    rw [decide_eq_decide, not_iff_not]
    exact ⟨Iff.mp, fun both => ⟨both, only⟩⟩
  · simp [step, counted]
  · simp [step, seen]

/-- A call agrees in both builds exactly if it is drained, and then the builds stay
related. -/
theorem step_related {capacity left : Nat} {s : State} (call : Call)
    (related : Related capacity s ((if call = .setevt then 1 else 0) + left)) :
    (Agree capacity s call ↔ Drained s call) ∧
    (Drained s call → Related capacity (step capacity s call) left) := by
  obtain ⟨counter, bytes⟩ := s
  cases related with
  | freed counter_ bytes_ =>
      cases counter_
      cases bytes_
      have same : perform eventfd ⟨none⟩ call = (⟨none⟩, false) := perform_freed eventfd call
      have same' : perform (pipe capacity) ⟨none⟩ call = (⟨none⟩, false) :=
        perform_freed (pipe capacity) call
      refine ⟨⟨fun _ _ => by nofun, fun _ => ?_⟩, fun _ => .freed ?_ ?_⟩
      · simp [Agree, same, same']
      · simp [step, same]
      · simp [step, same']
  | opened count queue counter_ bytes_ behind room below =>
      cases counter_
      cases bytes_
      have drained (kept : call ≠ .setevt) :
          Drained ⟨⟨some count⟩, ⟨some queue⟩⟩ call ↔ (count = 0 → queue = []) := by
        simp [Drained, kept]
      cases call with
      | setevt =>
          rw [if_pos rfl, Nat.add_comm 1 left] at room below
          obtain ⟨agree, next⟩ := set_related behind room below
          exact ⟨⟨fun _ set => absurd rfl set, fun _ => agree⟩, fun _ => next⟩
      | clearevt =>
          rw [if_neg (by decide), Nat.zero_add] at room below
          rw [drained (by decide)]
          exact clear_related behind room (by omega)
      | waitevt =>
          rw [if_neg (by decide), Nat.zero_add] at room below
          rw [drained (by decide)]
          obtain ⟨agree, next⟩ := wait_related behind room below
          exact ⟨agree, fun _ => next⟩

/-- With fewer sets than the pipe has room for, all calls return the same in both
builds exactly when no wait or clear finds bytes that an earlier clear has left. -/
theorem event_builds_agree_iff (capacity : Nat) (large : 4096 ≤ capacity) (calls : List Call)
    (few : sets calls < 4096) :
    Throughout (step capacity) (Agree capacity) (fresh capacity) calls ↔
      Throughout (step capacity) Drained (fresh capacity) calls := by
  have counted (call : Call) (rest : List Call) :
      sets (call :: rest) = (if call = .setevt then 1 else 0) + sets rest := by
    unfold sets
    rw [List.count_cons, Nat.add_comm]
    simp
  refine throughout_congr (fun s rest => Related capacity s (sets rest))
    (fun s call rest related drained => ?_) (fun s call rest related => ?_)
    (.opened 0 [] rfl rfl (Nat.zero_le _) ?_ ?_)
  · rw [counted] at related
    exact (step_related call related).2 drained
  · rw [counted] at related
    exact (step_related call related).1
  · rw [List.length_nil]
    omega
  · unfold counterMax
    omega

/-- One set, a wait, a clear and another wait. -/
theorem event_builds_agree_iff_one :
    Throughout (step 4096) (Agree 4096) (fresh 4096) [.setevt, .waitevt, .clearevt, .waitevt] :=
  (event_builds_agree_iff 4096 (by decide) [.setevt, .waitevt, .clearevt, .waitevt]
    (by decide)).mpr
    ⟨by nofun, by nofun, by nofun, fun _ _ => rfl, trivial⟩

/-- After 65 sets and a clear the pipe still holds a byte. -/
theorem event_builds_differ :
    ¬ ∀ capacity ≥ 4096, ∀ calls, sets calls < 4096 →
      Throughout (step capacity) (Agree capacity) (fresh capacity) calls := by
  intro claimed
  have agree := claimed 4096 (by decide) (List.replicate 65 .setevt ++ [.clearevt, .waitevt])
    (by decide)
  exact absurd agree (by decide +kernel)

end CprFormal.Events.Builds
