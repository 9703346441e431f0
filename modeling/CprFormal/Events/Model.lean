import Mathlib.Algebra.Group.Nat.Defs
import Mathlib.Data.List.Basic

/-!
# The events of `events.c`

The two builds differ in what is behind the descriptors of an event: the counter of an
`eventfd` or the bytes in a pipe.  Both are non-blocking.  The code around them is the
same.
-/

namespace CprFormal.Events.Model

/-- What is behind the descriptors of an event: what a fresh one holds, and what the
system calls of the code do to it and return. -/
structure Descriptors (σ : Type) where
  fresh : σ
  write : σ → σ × Int
  read : σ → σ × Int
  poll : σ → Int

/-- The largest value of the counter of an `eventfd`. -/
def counterMax : Nat := 2 ^ 64 - 2

/-- An `eventfd`: a write of one adds to the counter, a read takes all of it. -/
def eventfd : Descriptors Nat where
  fresh := 0
  write count := if count + 1 ≤ counterMax then (count + 1, 8) else (count, -1)
  read count := if count = 0 then (count, -1) else (0, 8)
  poll count := if count = 0 then 0 else 1

/-- A pipe: a write appends one byte, a read takes up to 64. -/
def pipe (capacity : Nat) : Descriptors (List UInt8) where
  fresh := []
  write queue := if queue.length < capacity then (queue ++ [120], 1) else (queue, -1)
  read queue := if queue = [] then (queue, -1) else (queue.drop 64, (queue.take 64).length)
  poll queue := if queue = [] then 0 else 1

/-- `event_t`; without descriptors `fds[0]` is `-1`. -/
structure EventT (σ : Type) where
  fds : Option σ

variable {σ : Type}

/-- `cpr_initevt` when the system gives the descriptors. -/
def cprInitevt (os : Descriptors σ) : EventT σ := ⟨some os.fresh⟩

/-- `cpr_freeevt` -/
def cprFreeevt (_evt : EventT σ) : EventT σ := ⟨none⟩

/-- What follows a system call: a negative result frees the event. -/
def settle (evt : EventT σ) (fd : σ) (rtn : Int) : EventT σ × Bool :=
  if rtn < 0 then (cprFreeevt evt, false) else (⟨some fd⟩, decide (rtn > 0))

/-- `cpr_setevt` -/
def cprSetevt (os : Descriptors σ) (evt : EventT σ) : EventT σ × Bool :=
  match evt.fds with
  | none => (evt, false)
  | some fd => settle evt (os.write fd).1 (os.write fd).2

/-- `cpr_clearevt` -/
def cprClearevt (os : Descriptors σ) (evt : EventT σ) : EventT σ × Bool :=
  match evt.fds with
  | none => (evt, false)
  | some fd => settle evt (os.read fd).1 (os.read fd).2

/-- `cpr_waitevt` with a timeout of zero. -/
def cprWaitevt (os : Descriptors σ) (evt : EventT σ) : EventT σ × Bool :=
  match evt.fds with
  | none => (evt, false)
  | some fd => settle evt fd (os.poll fd)

/-- The calls on an event. -/
inductive Call where
  | setevt
  | clearevt
  | waitevt
  deriving DecidableEq

/-- What a call leaves and returns. -/
def perform (os : Descriptors σ) (evt : EventT σ) : Call → EventT σ × Bool
  | .setevt => cprSetevt os evt
  | .clearevt => cprClearevt os evt
  | .waitevt => cprWaitevt os evt

/-- Nothing happens to an event that has been freed. -/
theorem perform_freed (os : Descriptors σ) (call : Call) :
    perform os ⟨none⟩ call = (⟨none⟩, false) := by
  cases call <;> rfl

theorem eventfd_setevt {count : Nat} (room : count + 1 ≤ counterMax) :
    perform eventfd ⟨some count⟩ .setevt = (⟨some (count + 1)⟩, true) := by
  simp only [perform, cprSetevt, settle, eventfd, if_pos room]
  rfl

/-- Clearing an event that is not set frees it. -/
theorem eventfd_clearevt (count : Nat) :
    perform eventfd ⟨some count⟩ .clearevt =
      if count = 0 then (⟨none⟩, false) else (⟨some 0⟩, true) := by
  by_cases unset : count = 0
  · simp [perform, cprClearevt, cprFreeevt, settle, eventfd, unset]
  · simp [perform, cprClearevt, settle, eventfd, unset]

theorem eventfd_waitevt (count : Nat) :
    perform eventfd ⟨some count⟩ .waitevt = (⟨some count⟩, decide (count ≠ 0)) := by
  by_cases unset : count = 0
  · simp [perform, cprWaitevt, settle, eventfd, unset]
  · simp [perform, cprWaitevt, settle, eventfd, unset]

theorem pipe_setevt {capacity : Nat} {queue : List UInt8} (room : queue.length < capacity) :
    perform (pipe capacity) ⟨some queue⟩ .setevt = (⟨some (queue ++ [120])⟩, true) := by
  simp [perform, cprSetevt, settle, pipe, room]

/-- Clearing takes up to 64 bytes, and frees an event without any. -/
theorem pipe_clearevt (capacity : Nat) (queue : List UInt8) :
    perform (pipe capacity) ⟨some queue⟩ .clearevt =
      if queue = [] then (⟨none⟩, false) else (⟨some (queue.drop 64)⟩, true) := by
  by_cases empty : queue = []
  · simp [perform, cprClearevt, cprFreeevt, settle, pipe, empty]
  · have taken : 0 < queue.length := List.length_pos_of_ne_nil empty
    have count : ¬ ((queue.take 64).length : Int) < 0 := by omega
    have some_ : ((queue.take 64).length : Int) > 0 := by
      rw [List.length_take]
      omega
    simp only [perform, cprClearevt, settle, pipe, empty, if_false, count, some_, decide_true]

theorem pipe_waitevt (capacity : Nat) (queue : List UInt8) :
    perform (pipe capacity) ⟨some queue⟩ .waitevt = (⟨some queue⟩, decide (queue ≠ [])) := by
  by_cases empty : queue = []
  · simp [perform, cprWaitevt, settle, pipe, empty]
  · simp [perform, cprWaitevt, settle, pipe, empty]

end CprFormal.Events.Model
