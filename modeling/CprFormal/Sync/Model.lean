import CprFormal.Library.SignedInt

/-!
# The deadlines of `sync.c`

A `deadline_t` is a `struct timespec`.  `time_t` and `long long` have 64 bits; `long`,
which is the type of `tv_nsec` and of an offset in milliseconds, has 64 bits except on
Windows, where it has 32.  The products of a remainder of `ms` fit into both.  On Windows
`cpr_expires` converts its result, and the seconds for `tv`, to the shorter `long`.
-/

namespace CprFormal.Sync.Model

open CprFormal.Library.SignedInt

/-- `deadline_t` -/
structure DeadlineT where
  tvSec : Int
  tvNsec : Int
  deriving DecidableEq

namespace DeadlineT

/-- `0 <= tv_nsec < 10^9` -/
def Normalised (ts : DeadlineT) : Prop := 0 ≤ ts.tvNsec ∧ ts.tvNsec < 1000000000

instance (ts : DeadlineT) : Decidable ts.Normalised := inferInstanceAs (Decidable (_ ∧ _))

/-- The nanosecond count. -/
def total (ts : DeadlineT) : Int := ts.tvSec * 1000000000 + ts.tvNsec

end DeadlineT

/-- The carry out of `tv_nsec`. -/
def carry (ts : DeadlineT) : Option DeadlineT := do
  let sec ← checked 64 (ts.tvSec + 1)
  some ⟨sec, ts.tvNsec - 1000000000⟩

/-- The borrow into `tv_nsec`. -/
def borrow (ts : DeadlineT) : Option DeadlineT := do
  let sec ← checked 64 (ts.tvSec - 1)
  some ⟨sec, ts.tvNsec + 1000000000⟩

/-- `tv_sec += ms / 1000` and `tv_nsec += (ms % 1000) * 1000000`. -/
def addMs (long : Nat) (ts : DeadlineT) (ms : Int) : Option DeadlineT := do
  let sec ← checked 64 (ts.tvSec + ms.tdiv 1000)
  let nsec ← checked long (ts.tvNsec + ms.tmod 1000 * 1000000)
  some ⟨sec, nsec⟩

/-- `cpr_adjust`; `none` is undefined. -/
def cprAdjust (long : Nat) (ts : DeadlineT) (ms : Int) : Option DeadlineT := do
  let ts ← addMs long ts ms
  if ts.tvNsec ≥ 1000000000 then carry ts
  else if ts.tvNsec < 0 then borrow ts
  else some ts

/-- What the clock gives: on Windows a counter and its frequency, else the time. -/
inductive Reading where
  | windows (counter freq : Int)
  | posix (now : DeadlineT)

namespace Reading

/-- The counter has not run backwards, its frequency is positive; the time is
normalised. -/
def Valid : Reading → Prop
  | windows counter freq => 0 ≤ counter ∧ 0 < freq
  | posix now => now.Normalised

/-- The time that the clock gives, in nanoseconds. -/
def nanoseconds : Reading → Int
  | windows counter freq =>
      counter / freq * 1000000000 +
        (counter % freq * 1000000000 / freq + 5000) / 10000 * 10000
  | posix now => now.total

/-- The reading is not one of the Windows counter. -/
def Posix : Reading → Prop
  | windows _ _ => False
  | posix _ => True

end Reading

/-- The carry of the Windows version, which does not borrow. -/
def carryOnly (ts : DeadlineT) : Option DeadlineT :=
  if ts.tvNsec ≥ 1000000000 then carry ts else some ts

/-- The time in the counter, its nanoseconds rounded to ten microseconds. -/
def counterTime (counter freq : Int) : Option DeadlineT := do
  let sec := counter.tdiv freq
  let rem := counter.tmod freq
  let scaled ← checked 64 (rem * 1000000000)
  let nsec := scaled.tdiv freq
  some ⟨sec, (nsec + 5000).tdiv 10000 * 10000⟩

/-- `cpr_deadline`.  `none` is no deadline: the clock has failed, or a result is
undefined. -/
def cprDeadline (clock : Option Reading) (ms : Int) : Option DeadlineT :=
  match clock with
  | none => none
  | some (.windows counter freq) => do
      let ts ← counterTime counter freq
      let ts ← addMs 32 ts ms
      let ts ← carryOnly ts
      cprAdjust 32 ts ms
  | some (.posix now) => cprAdjust 64 now ms

/-- The bits of `long` where the clock is read. -/
def longOf : Option Reading → Nat
  | some (.windows _ _) => 32
  | _ => 64

/-- What `cpr_expires` returns, and what it stores in `tv` when there is one. -/
structure Expires where
  ms : Int
  tvSec : Int
  tvUsec : Int
  deriving DecidableEq

/-- `delta`, the two parts subtracted one by one, with one borrow. -/
def difference (long : Nat) (deadline current : DeadlineT) : Option DeadlineT := do
  let sec ← checked 64 (deadline.tvSec - current.tvSec)
  let nsec ← checked long (deadline.tvNsec - current.tvNsec)
  if nsec < 0 then borrow ⟨sec, nsec⟩ else some ⟨sec, nsec⟩

/-- The part of `cpr_expires` behind the subtraction. -/
def expiresOf (long : Nat) (delta : DeadlineT) : Option Expires :=
  if delta.tvSec < 0 ∨ delta.tvSec = 0 ∧ delta.tvNsec ≤ 0 then some ⟨0, 0, 0⟩
  else do
    let seconds ← checked 64 (delta.tvSec * 1000)
    let ms ← checked 64 (seconds + delta.tvNsec.tdiv 1000000)
    some ⟨convert long ms, convert long delta.tvSec, delta.tvNsec.tdiv 1000⟩

/-- `cpr_expires`; `none` is undefined. -/
def cprExpires (clock : Option Reading) (deadline : Option DeadlineT) : Option Expires :=
  match deadline, clock with
  | some deadline, some reading => do
      let current ← cprDeadline (some reading) 0
      let delta ← difference (longOf clock) deadline current
      expiresOf (longOf clock) delta
  | _, _ => some ⟨0, 0, 0⟩

/-- `cpr_realtime` and what it leaves in `*ts`, which a failing clock does not set. -/
def cprRealtime (clock : Option Reading) (realtime : Option DeadlineT)
    (deadline : Option DeadlineT) (ts : DeadlineT) : Option (Bool × DeadlineT) := do
  let ts := realtime.getD ts
  let left ← cprExpires clock deadline
  if left.ms = 0 then some (false, ts)
  else
    let ts ← cprAdjust (longOf clock) ts left.ms
    some (true, ts)

/-- Nanoseconds become seconds, or the other way round. -/
theorem moved_total {ts ts' : DeadlineT} {sec nsec : Int}
    (done : (do
      let sec ← checked 64 sec
      some (⟨sec, nsec⟩ : DeadlineT)) = some ts')
    (same : sec * 1000000000 + nsec = ts.total) : ts'.total = ts.total ∧ ts'.tvNsec = nsec := by
  obtain ⟨_, checked, moved⟩ := Option.bind_eq_some_iff.mp done
  obtain ⟨_, rfl⟩ := checked_eq_some.mp checked
  cases moved
  exact ⟨same, rfl⟩

theorem carry_total {ts ts' : DeadlineT} (done : carry ts = some ts') :
    ts'.total = ts.total ∧ ts'.tvNsec = ts.tvNsec - 1000000000 := by
  refine moved_total done ?_
  simp only [DeadlineT.total]
  omega

theorem borrow_total {ts ts' : DeadlineT} (done : borrow ts = some ts') :
    ts'.total = ts.total ∧ ts'.tvNsec = ts.tvNsec + 1000000000 := by
  refine moved_total done ?_
  simp only [DeadlineT.total]
  omega

/-- The offset is added exactly, and less than a second of it to `tv_nsec`. -/
theorem addMs_total {long : Nat} {ts ts' : DeadlineT} {ms : Int}
    (done : addMs long ts ms = some ts') :
    ts'.total = ts.total + ms * 1000000 ∧
    ts.tvNsec - 1000000000 < ts'.tvNsec ∧ ts'.tvNsec < ts.tvNsec + 1000000000 := by
  obtain ⟨sum, low, high⟩ := divided ms (show (0 : Int) < 1000 by decide)
  unfold addMs at done
  obtain ⟨sec, seconds, done⟩ := Option.bind_eq_some_iff.mp done
  obtain ⟨nsec, nanoseconds, same⟩ := Option.bind_eq_some_iff.mp done
  obtain ⟨_, rfl⟩ := checked_eq_some.mp seconds
  obtain ⟨_, rfl⟩ := checked_eq_some.mp nanoseconds
  cases same
  simp only [DeadlineT.total]
  omega

/-- `cpr_adjust` adds the offset exactly, and what was normalised stays so. -/
theorem adjust_total {long : Nat} {ts ts' : DeadlineT} {ms : Int}
    (done : cprAdjust long ts ms = some ts') :
    ts'.total = ts.total + ms * 1000000 ∧ (ts.Normalised → ts'.Normalised) := by
  unfold cprAdjust at done
  obtain ⟨added, sum, done⟩ := Option.bind_eq_some_iff.mp done
  obtain ⟨total, low, high⟩ := addMs_total sum
  split at done
  · obtain ⟨same, nsec⟩ := carry_total done
    refine ⟨same.trans total, fun normal => ?_⟩
    unfold DeadlineT.Normalised at *
    omega
  · split at done
    · obtain ⟨same, nsec⟩ := borrow_total done
      refine ⟨same.trans total, fun normal => ?_⟩
      unfold DeadlineT.Normalised at *
      omega
    · cases done
      refine ⟨total, fun _ => ?_⟩
      unfold DeadlineT.Normalised
      omega

end CprFormal.Sync.Model
