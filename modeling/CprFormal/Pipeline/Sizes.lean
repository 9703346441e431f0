import CprFormal.Library.SizeT
import CprFormal.Pipeline.Fifo

/-!
# Pipelines of every size

`make_pipeline` takes any `size`: the sum for `malloc` can wrap around, and a ring without
slots is never full for a `DROP` put to stop at.  The index, the remainder and the counter
are safe exactly when neither happens.
-/

namespace CprFormal.Pipeline.Sizes

open Function (update)
open CprFormal.Library.SizeT CprFormal.Library.Transition
open CprFormal.Pipeline.Fifo CprFormal.Pipeline.Model

/-- `sizeof(pipeline_t) + (size * sizeof(void *))` -/
def allocated (header size : Nat) : Nat := wrap (header + wrap (size * 8))

/-- The slots of `buf` that the allocated bytes have room for. -/
def slots (header size : Nat) : Nat := (allocated header size - header) / 8

variable {τ α : Type}

/-- What a step does to the ring: an index in the allocated slots, no remainder by zero
and no decrement of zero. -/
def Safe (slots : Nat) (s : State τ α) : Event τ α → Prop
  | .stored _ _ => s.pl.tail < slots ∧ s.pl.size ≠ 0
  | .taken _ _ | .dropped _ _ | .drained _ _ =>
      s.pl.head < slots ∧ s.pl.size ≠ 0 ∧ s.pl.count ≠ 0
  | _ => True

theorem slots_eq {header size : Nat} (fits : header + size * 8 < 2 ^ 64) :
    slots header size = size := by
  unfold slots allocated
  rw [@wrap_of_lt (size * 8) (by omega), wrap_of_lt fits]
  omega

/-- What has been lost by the wrap-around is missing at the end. -/
theorem slots_lt {header size : Nat} (bound : header < 2 ^ 64)
    (wraps : 2 ^ 64 ≤ header + size * 8) : slots header size < size := by
  unfold slots allocated wrap
  omega

variable [DecidableEq τ]

/-- A ring with slots is safe in every step. -/
theorem safe_of_ringOk {s s' : State τ α} {e : Event τ α} (ok : RingOk s.pl)
    (step : Step s e s') : Safe s.pl.size s e := by
  have some_slots : s.pl.size ≠ 0 := Nat.ne_of_gt (Nat.lt_of_le_of_lt (Nat.zero_le _) ok.head)
  cases step with
  | putStore t here room signal =>
      refine ⟨?_, some_slots⟩
      rw [ok.tail]
      exact Nat.mod_lt _ (Nat.pos_of_ne_zero some_slots)
  | getTake t here queued signal => exact ⟨ok.head, some_slots, Nat.ne_of_gt queued⟩
  | putDrop t here full policy =>
      exact ⟨ok.head, some_slots, Nat.ne_of_gt (queued_of_full ok full)⟩
  | closeDrain t here queued => exact ⟨ok.head, some_slots, queued⟩
  | _ => trivial

/-- A ring without slots that no put drops from. -/
structure Unused (pl : PipelineT α) : Prop where
  size : pl.size = 0
  count : pl.count = 0
  policy : pl.policy = .wait

/-- Nothing ever goes into such a ring. -/
theorem step_unused {s s' : State τ α} {e : Event τ α} (unused : Unused s.pl)
    (step : Step s e s') (slots : Nat) : Unused s'.pl ∧ Safe slots s e := by
  have none_queued := unused.count
  have none_free := unused.size
  cases step with
  | putStore t here room signal => omega
  | getTake t here queued signal => omega
  | putDrop t here full policy => exact absurd unused.policy policy
  | closeDrain t here queued => exact absurd none_queued queued
  | _ => exact ⟨unused, trivial⟩

theorem run_safe {header size : Nat} {policy : Policy} (dropping : size = 0 → policy = .wait)
    (fits : header + size * 8 < 2 ^ 64) {trace : List (Event τ α)} {s s' : State τ α}
    {e : Event τ α} (run : Run (system τ α size policy) trace s) (step : Step s e s') :
    Safe (slots header size) s e := by
  rw [slots_eq fits]
  by_cases empty : size = 0
  · have unused : Unused s.pl := by
      refine Run.invariant (fun _ s => Unused s.pl) ?_ ?_ run
      · rintro s rfl
        exact ⟨empty, rfl, dropping empty⟩
      · intro trace s e s' unused step
        exact (step_unused unused step 0).1
    exact (step_unused unused step size).2
  · have ring : RingOk s.pl ∧ s.pl.size = size := by
      refine Run.invariant (fun _ s => RingOk s.pl ∧ s.pl.size = size) ?_ ?_ run
      · rintro s rfl
        exact ⟨make_ringOk policy (Nat.pos_of_ne_zero empty), rfl⟩
      · rintro trace s e s' ⟨ok, same⟩ step
        exact ⟨step_ring ok step, (step_shape step).2.trans same⟩
    rw [← ring.2]
    exact safe_of_ringOk ring.1 step

/-! ## Runs of one thread -/

/-- Nobody is inside a call of an open pipeline. -/
def quiet (pl : PipelineT α) : State τ α := ⟨pl, false, none, fun _ => .idle⟩

/-- The thread `t` has found the pipeline open. -/
def counting (pl : PipelineT α) (t : τ) (ptr : Option α) : State τ α :=
  ⟨pl, false, some t, update (fun _ => .idle) t (.putCount ptr)⟩

theorem counting_pc (pl : PipelineT α) (t : τ) (ptr : Option α) :
    (counting pl t ptr).pc t = .putCount ptr := by
  simp [counting]

section Puts

variable {size : Nat} {policy : Policy}

/-- A call of `put_pipeline` up to its test of the count. -/
theorem run_counting {pl : PipelineT α} {trace : List (Event τ α)}
    (run : Run (system τ α size policy) trace (quiet pl)) (t : τ) (ptr : Option α) :
    ∃ trace', Run (system τ α size policy) trace' (counting pl t ptr) := by
  have called := run.next (Step.putCall t ptr rfl)
  have entered := called.next
    (@Step.acquire τ α _ _ t (.putTest ptr) (by simp [Pc.entered]) rfl)
  have tested := entered.next (@Step.putTest τ α _ _ t ptr (by simp))
  simp only [quiet, Function.update_idem, Bool.false_eq_true, if_false] at tested
  exact ⟨_, tested⟩

/-- The rest of the call when there is room. -/
theorem step_stored {pl : PipelineT α} (room : pl.count < pl.size) (t : τ) (ptr : Option α) :
    Step (counting pl t ptr) (.stored t ptr)
      ⟨pl.store ptr, false, some t, update (fun _ => .idle) t (.putUnlock ptr true)⟩ := by
  have nobody : SignalIf (pl.count == 0) .output (counting pl t ptr).pc
      (counting pl t ptr).pc := by
    have awake (u : τ) : Cond.output.condition.asleep ((counting pl t ptr).pc u) = false := by
      by_cases own : u = t
      · simp [counting, own, Cond.condition, Pc.asleepOutput]
      · simp [counting, own, Cond.condition, Pc.asleepOutput]
    unfold SignalIf
    split
    · exact ⟨none, .nobody awake⟩
    · rfl
  have stored := @Step.putStore τ α _ (counting pl t ptr) t ptr _ (counting_pc pl t ptr) room nobody
  simp only [counting, Function.update_idem] at stored
  exact stored

/-- A whole call of `put_pipeline` with room. -/
theorem run_put {pl : PipelineT α} {trace : List (Event τ α)}
    (run : Run (system τ α size policy) trace (quiet pl)) (room : pl.count < pl.size) (t : τ)
    (ptr : Option α) : ∃ trace', Run (system τ α size policy) trace' (quiet (pl.store ptr)) := by
  obtain ⟨trace', counted⟩ := run_counting run t ptr
  have stored := counted.next (step_stored room t ptr)
  have returned := stored.next (@Step.putReturn τ α _ _ t ptr true (by simp))
  simp only [Function.update_idem] at returned
  rw [Function.update_eq_self t (fun _ => Pc.idle)] at returned
  exact ⟨_, returned⟩

/-- Puts fill the ring from its first slot on. -/
theorem run_filled (some_slots : 1 ≤ size) (t : τ) {k : Nat} (room : k ≤ size) :
    ∃ (trace : List (Event τ α)) (pl : PipelineT α),
      Run (system τ α size policy) trace (quiet pl) ∧ RingOk pl ∧ pl.size = size ∧
        pl.head = 0 ∧ pl.count = k := by
  induction k with
  | zero => exact ⟨[], _, .start rfl, make_ringOk policy some_slots, rfl, rfl, rfl⟩
  | succ k ih =>
      obtain ⟨trace, pl, run, ok, same, head, count⟩ := ih (Nat.le_of_succ_le room)
      have below : pl.count < pl.size := by omega
      obtain ⟨trace', stored⟩ := run_put run below t none
      exact ⟨trace', _, stored, store_ringOk ok below none, same, head,
        congrArg (· + 1) count⟩

/-- The put behind the last allocated slot is not safe. -/
theorem unsafe_of_slots {slots : Nat} (short : slots < size) (t : τ) :
    ∃ (trace : List (Event τ α)) (s s' : State τ α) (e : Event τ α),
      Run (system τ α size policy) trace s ∧ Step s e s' ∧ ¬ Safe slots s e := by
  obtain ⟨trace, pl, run, ok, same, head, count⟩ :=
    @run_filled τ α _ size policy (by omega) t slots (Nat.le_of_lt short)
  obtain ⟨trace', counted⟩ := run_counting run t none
  have room : pl.count < pl.size := by omega
  have tail : pl.tail = slots := by
    rw [ok.tail, head, Nat.zero_add, Nat.mod_eq_of_lt room, count]
  refine ⟨trace', _, _, _, counted, step_stored room t none, fun safe => ?_⟩
  exact absurd tail (Nat.ne_of_lt safe.1)

/-- A `DROP` put into a ring without slots is not safe. -/
theorem unsafe_of_empty (slots : Nat) (t : τ) :
    ∃ (trace : List (Event τ α)) (s s' : State τ α) (e : Event τ α),
      Run (system τ α 0 .drop) trace s ∧ Step s e s' ∧ ¬ Safe slots s e := by
  have start : Run (system τ α 0 .drop) [] (quiet (PipelineT.make 0 .drop)) := .start rfl
  obtain ⟨trace, counted⟩ := run_counting start t none
  have dropped := @Step.putDrop τ α _ (counting (PipelineT.make 0 .drop) t none) t none
    (counting_pc _ t none) (Nat.lt_irrefl 0) (show Policy.drop ≠ .wait by decide)
  exact ⟨trace, _, _, _, counted, dropped, fun safe => safe.2.1 rfl⟩

end Puts

/-- A pipeline is safe in all its runs when it has a slot or waits, and the sum that is
allocated does not wrap around. -/
theorem pipeline_safe_iff (t : τ) {header size : Nat} (bound : header < 2 ^ 64)
    (policy : Policy) :
    (∀ (trace : List (Event τ α)) (s s' : State τ α) (e : Event τ α),
      Run (system τ α size policy) trace s → Step s e s' → Safe (slots header size) s e) ↔
      (size = 0 → policy = .wait) ∧ header + size * 8 < 2 ^ 64 := by
  constructor
  · intro safe
    constructor
    · rintro rfl
      cases policy with
      | wait => rfl
      | drop =>
          obtain ⟨trace, s, s', e, run, step, fails⟩ := @unsafe_of_empty τ α _ (slots header 0) t
          exact absurd (safe trace s s' e run step) fails
    · by_contra wraps
      have short := slots_lt bound (Nat.not_lt.mp wraps)
      obtain ⟨trace, s, s', e, run, step, fails⟩ := @unsafe_of_slots τ α _ size policy _ short t
      exact absurd (safe trace s s' e run step) fails
  · rintro ⟨dropping, fits⟩ trace s s' e run step
    exact run_safe dropping fits run step

/-- Two slots behind a header of 192 bytes. -/
theorem pipeline_safe_iff_two :
    (∀ (trace : List (Event Unit Unit)) (s s' : State Unit Unit) (e : Event Unit Unit),
      Run (system Unit Unit 2 .drop) trace s → Step s e s' → Safe (slots 192 2) s e) ↔
      (2 = 0 → Policy.drop = .wait) ∧ 192 + 2 * 8 < 2 ^ 64 :=
  pipeline_safe_iff () (by decide) .drop

/-- A `DROP` put into a pipeline of size 0, and a pipeline of `2 ^ 61` slots for which
only the header has been allocated. -/
theorem pipeline_unsafe :
    (¬ ∀ (trace : List (Event Unit Unit)) (s s' : State Unit Unit) (e : Event Unit Unit),
      Run (system Unit Unit 0 .drop) trace s → Step s e s' → Safe (slots 192 0) s e) ∧
    ¬ ∀ (trace : List (Event Unit Unit)) (s s' : State Unit Unit) (e : Event Unit Unit),
      Run (system Unit Unit (2 ^ 61) .wait) trace s → Step s e s' →
        Safe (slots 192 (2 ^ 61)) s e := by
  constructor
  · intro safe
    obtain ⟨trace, s, s', e, run, step, fails⟩ := @unsafe_of_empty Unit Unit _ (slots 192 0) ()
    exact fails (safe trace s s' e run step)
  · intro safe
    have short : slots 192 (2 ^ 61) < 2 ^ 61 := slots_lt (by decide) (by decide)
    obtain ⟨trace, s, s', e, run, step, fails⟩ :=
      @unsafe_of_slots Unit Unit _ (2 ^ 61) .wait _ short ()
    exact fails (safe trace s s' e run step)

end CprFormal.Pipeline.Sizes
