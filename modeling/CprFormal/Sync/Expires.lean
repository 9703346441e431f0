import CprFormal.Sync.Adjust
import CprFormal.Sync.Deadline

/-!
# The time that is left

`cpr_expires` subtracts seconds and nanoseconds apart and borrows once, so its delta is
the normalised form of the difference; its results divide it without a rest below zero
and are rounded down.
-/

namespace CprFormal.Sync.Expires

open CprFormal.Library.SignedInt
open CprFormal.Sync.Adjust CprFormal.Sync.Deadline CprFormal.Sync.Model

/-- What is reported when `left` nanoseconds are left. -/
structure Remaining (left : Int) (e : Expires) : Prop where
  ms : e.ms = max 0 (left / 1000000)
  usec : 0 ≤ e.tvUsec ∧ e.tvUsec < 1000000
  tv : e.tvSec * 1000000 + e.tvUsec = if 0 < left then left / 1000 else 0

/-- The results for `left` nanoseconds overflow nowhere. -/
def Within (long : Nat) (left : Int) : Prop :=
  -2 ^ 63 ≤ left / 1000000000 ∧ left / 1000000 < 2 ^ (long - 1)

theorem longOf_bounds (clock : Option Reading) : 32 ≤ longOf clock ∧ longOf clock ≤ 64 := by
  unfold longOf
  split
  · decide
  · decide

section Difference

variable {long : Nat} {deadline current : DeadlineT}

theorem difference_eq_ofTotal {delta : DeadlineT} (normal : deadline.Normalised)
    (normal' : current.Normalised) (done : difference long deadline current = some delta) :
    delta = ofTotal (deadline.total - current.total) := by
  unfold difference at done
  obtain ⟨sec, seconds, done⟩ := Option.bind_eq_some_iff.mp done
  obtain ⟨nsec, nanoseconds, done⟩ := Option.bind_eq_some_iff.mp done
  obtain ⟨-, rfl⟩ := checked_eq_some.mp seconds
  obtain ⟨-, rfl⟩ := checked_eq_some.mp nanoseconds
  obtain ⟨start, stop⟩ := normal
  obtain ⟨start', stop'⟩ := normal'
  have parts : deadline.total - current.total =
      (⟨deadline.tvSec - current.tvSec, deadline.tvNsec - current.tvNsec⟩ : DeadlineT).total := by
    unfold DeadlineT.total
    dsimp only
    omega
  rw [parts]
  split at done
  · rename_i below
    have nsec : delta.tvNsec = deadline.tvNsec - current.tvNsec + 1000000000 :=
      (borrow_total done).2
    rw [← (borrow_total done).1]
    exact (ofTotal_total ⟨by omega, by omega⟩).symm
  · rename_i enough
    cases done
    exact (ofTotal_total ⟨Int.not_lt.mp enough, by dsimp only; omega⟩).symm

theorem difference_defined (wide : 32 ≤ long) (narrow : long ≤ 64) (normal : deadline.Normalised)
    (normal' : current.Normalised) (within : Within long (deadline.total - current.total)) :
    ∃ delta, difference long deadline current = some delta := by
  obtain ⟨start, stop⟩ := normal
  obtain ⟨start', stop'⟩ := normal'
  obtain ⟨low, high⟩ := within
  have room : (2 : Int) ^ 31 ≤ 2 ^ (long - 1) := pow_le_pow_right₀ (by decide) (by omega)
  have bound : (2 : Int) ^ (long - 1) ≤ 2 ^ 63 := pow_le_pow_right₀ (by decide) (by omega)
  unfold DeadlineT.total at low high
  have seconds : checked 64 (deadline.tvSec - current.tvSec) = some _ :=
    checked_eq_some.mpr ⟨by omega, rfl⟩
  have nanoseconds : checked long (deadline.tvNsec - current.tvNsec) = some _ :=
    checked_eq_some.mpr ⟨by omega, rfl⟩
  unfold difference
  rw [seconds, nanoseconds]
  change ∃ delta, (if deadline.tvNsec - current.tvNsec < 0 then _ else _) = some delta
  split
  · exact borrow_defined (by dsimp only; omega) (by dsimp only; omega)
  · exact ⟨_, rfl⟩

end Difference

/-- No time is left in a normalised delta of zero or less. -/
theorem no_time_iff (left : Int) :
    ((ofTotal left).tvSec < 0 ∨ (ofTotal left).tvSec = 0 ∧ (ofTotal left).tvNsec ≤ 0) ↔
      left ≤ 0 := by
  unfold ofTotal
  dsimp only
  omega

/-- The parts of a positive count, divided. -/
theorem expiresOf_eq (long : Nat) {left : Int} (some_left : 0 < left)
    (fits : left / 1000000 < 2 ^ 63) :
    expiresOf long (ofTotal left) =
      some ⟨convert long (left / 1000000), convert long (left / 1000000000),
        left % 1000000000 / 1000⟩ := by
  have low : 0 ≤ left % 1000000000 := Int.emod_nonneg _ (by decide)
  have seconds : checked 64 ((ofTotal left).tvSec * 1000) = some _ :=
    checked_eq_some.mpr ⟨by unfold ofTotal; dsimp only; omega, rfl⟩
  have split_ : (ofTotal left).tvSec * 1000 + (ofTotal left).tvNsec.tdiv 1000000 =
      left / 1000000 := by
    unfold ofTotal
    dsimp only
    rw [Int.tdiv_eq_ediv_of_nonneg low]
    omega
  have ms : checked 64 (left / 1000000) = some _ := checked_eq_some.mpr ⟨by omega, rfl⟩
  have usec : (ofTotal left).tvNsec.tdiv 1000 = left % 1000000000 / 1000 :=
    Int.tdiv_eq_ediv_of_nonneg low
  unfold expiresOf
  rw [if_neg fun none_left => absurd ((no_time_iff left).mp none_left) (Int.not_le.mpr some_left),
    seconds, Option.bind_eq_bind, Option.bind_some, split_, ms, Option.bind_some, usec]
  rfl

/-- The sum of the milliseconds has been checked. -/
theorem expiresOf_fits {long : Nat} {left : Int} (some_left : 0 < left) {e : Expires}
    (done : expiresOf long (ofTotal left) = some e) : left / 1000000 < 2 ^ 63 := by
  have low : 0 ≤ left % 1000000000 := Int.emod_nonneg _ (by decide)
  unfold expiresOf at done
  rw [if_neg fun none_left =>
    absurd ((no_time_iff left).mp none_left) (Int.not_le.mpr some_left)] at done
  obtain ⟨seconds, product, done⟩ := Option.bind_eq_some_iff.mp done
  obtain ⟨ms, sum, -⟩ := Option.bind_eq_some_iff.mp done
  obtain ⟨-, rfl⟩ := checked_eq_some.mp product
  obtain ⟨⟨-, high⟩, -⟩ := checked_eq_some.mp sum
  unfold ofTotal at high
  dsimp only at high
  rw [Int.tdiv_eq_ediv_of_nonneg low] at high
  omega

/-- No time is left, and both results are zero. -/
theorem expiresOf_zero (long : Nat) {left : Int} (none_left : left ≤ 0) :
    expiresOf long (ofTotal left) = some ⟨0, 0, 0⟩ :=
  if_pos ((no_time_iff left).mpr none_left)

/-- The delta of a deadline and the current time gives the exact results. -/
theorem expiresOf_remaining {long : Nat} (wide : 32 ≤ long) (narrow : long ≤ 64) {left : Int}
    (fits : left / 1000000 < 2 ^ (long - 1)) :
    ∃ e, expiresOf long (ofTotal left) = some e ∧ Remaining left e := by
  have bound : (2 : Int) ^ (long - 1) ≤ 2 ^ 63 := pow_le_pow_right₀ (by decide) (by omega)
  by_cases some_left : 0 < left
  · have ms : convert long (left / 1000000) = left / 1000000 :=
      convert_of_held (by omega) (by omega) fits
    have sec : convert long (left / 1000000000) = left / 1000000000 :=
      convert_of_held (by omega) (by omega) (by omega)
    have quotient : 0 ≤ left / 1000000 := by omega
    refine ⟨_, expiresOf_eq long some_left (by omega), ⟨?_, ?_, ?_⟩⟩
    · rw [ms]
      exact (max_eq_right quotient).symm
    · dsimp only
      omega
    · rw [if_pos some_left, sec]
      dsimp only
      omega
  · have none_left := Int.not_lt.mp some_left
    have quotient : left / 1000000 ≤ 0 := by omega
    refine ⟨_, expiresOf_zero long none_left, ⟨?_, by decide, ?_⟩⟩
    · exact (max_eq_left quotient).symm
    · rw [if_neg some_left]
      rfl

/-! ## The time left of a deadline -/

/-- The current time is normalised on both platforms. -/
theorem current_exact {reading : Reading} (valid : reading.Valid) {current : DeadlineT}
    (read : cprDeadline (some reading) 0 = some current) :
    current.Normalised ∧ current.total = reading.nanoseconds := by
  obtain ⟨normal, total⟩ := (deadline_exact_iff valid read).mpr (.inr rfl)
  exact ⟨normal, by omega⟩

/-- What `cpr_expires` computes when it computes anything. -/
theorem cprExpires_done {reading : Reading} (valid : reading.Valid) {deadline : DeadlineT}
    (normal : deadline.Normalised) {e : Expires}
    (done : cprExpires (some reading) (some deadline) = some e) :
    expiresOf (longOf (some reading)) (ofTotal (deadline.total - reading.nanoseconds)) =
      some e := by
  obtain ⟨current, read, done⟩ := Option.bind_eq_some_iff.mp done
  obtain ⟨normal', total⟩ := current_exact valid read
  obtain ⟨delta, subtracted, done⟩ := Option.bind_eq_some_iff.mp done
  rw [← total, ← difference_eq_ofTotal normal normal' subtracted]
  exact done

/-- The time left is exact. -/
theorem cprExpires_exact {reading : Reading} (valid : reading.Valid) {current : DeadlineT}
    (read : cprDeadline (some reading) 0 = some current) {deadline : DeadlineT}
    (normal : deadline.Normalised)
    (within : Within (longOf (some reading)) (deadline.total - reading.nanoseconds)) :
    ∃ e, cprExpires (some reading) (some deadline) = some e ∧
      Remaining (deadline.total - reading.nanoseconds) e := by
  obtain ⟨wide, narrow⟩ := longOf_bounds (some reading)
  obtain ⟨normal', total⟩ := current_exact valid read
  obtain ⟨e, done, exact_⟩ := expiresOf_remaining wide narrow within.2
  refine ⟨e, ?_, exact_⟩
  rw [← total] at done within
  obtain ⟨delta, subtracted⟩ := difference_defined wide narrow normal normal' within
  have same := difference_eq_ofTotal normal normal' subtracted
  unfold cprExpires
  dsimp only
  rw [read, Option.bind_eq_bind, Option.bind_some, subtracted, Option.bind_some, same]
  exact done

/-- With a `long` of 64 bits the milliseconds are exact whenever they are defined. -/
theorem cprExpires_posix {now deadline : DeadlineT} (valid : now.Normalised)
    (normal : deadline.Normalised) {e : Expires}
    (done : cprExpires (some (.posix now)) (some deadline) = some e) :
    e.ms = max 0 ((deadline.total - now.total) / 1000000) := by
  have computed : expiresOf 64 (ofTotal (deadline.total - now.total)) = some e :=
    cprExpires_done (show (Reading.posix now).Valid from valid) normal done
  have fits : (deadline.total - now.total) / 1000000 < 2 ^ 63 := by
    by_cases some_left : 0 < deadline.total - now.total
    · exact expiresOf_fits some_left computed
    · omega
  obtain ⟨e', same, exact_⟩ :=
    @expiresOf_remaining 64 (by decide) (Nat.le_refl _) (deadline.total - now.total) fits
  obtain rfl : e = e' := Option.some.inj (computed.symm.trans same)
  exact exact_.ms

/-- `cpr_expires` is exact, and what is left of a deadline that lies `ms` milliseconds
ahead starts at `ms` or below and never grows. -/
theorem expires_exact_and_monotone :
    (∀ {reading : Reading} {current deadline : DeadlineT}, reading.Valid →
      cprDeadline (some reading) 0 = some current → deadline.Normalised →
      Within (longOf (some reading)) (deadline.total - reading.nanoseconds) →
      ∃ e, cprExpires (some reading) (some deadline) = some e ∧
        Remaining (deadline.total - reading.nanoseconds) e) ∧
    ∀ {start deadline : DeadlineT} {ms : Int}, start.Normalised → 0 ≤ ms →
      cprDeadline (some (.posix start)) ms = some deadline →
      ∀ {now later : DeadlineT} {e e' : Expires}, now.Normalised → later.Normalised →
        start.total ≤ now.total → now.total ≤ later.total →
        cprExpires (some (.posix now)) (some deadline) = some e →
        cprExpires (some (.posix later)) (some deadline) = some e' →
        0 ≤ e'.ms ∧ e'.ms ≤ e.ms ∧ e.ms ≤ ms := by
  refine ⟨fun valid read normal within => cprExpires_exact valid read normal within, ?_⟩
  intro start deadline ms normal ahead made now later e e' normal₁ normal₂ after onward done done'
  obtain ⟨total, kept⟩ := adjust_total made
  have first := cprExpires_posix normal₁ (kept normal) done
  have second := cprExpires_posix normal₂ (kept normal) done'
  rw [first, second]
  omega

/-- A deadline three milliseconds ahead, one millisecond later and then two. -/
theorem expires_exact_and_monotone_three :
    (∃ e, cprExpires (some (.posix ⟨7, 1500000⟩)) (some ⟨7, 3000000⟩) = some e ∧
      Remaining 1500000 e) ∧ (0 : Int) ≤ 1 ∧ (1 : Int) ≤ 2 ∧ (2 : Int) ≤ 3 := by
  have normal (nsec : Int) (low : 0 ≤ nsec) (high : nsec < 1000000000) :
      (⟨7, nsec⟩ : DeadlineT).Normalised := ⟨low, high⟩
  constructor
  · have within : Within 64 1500000 := ⟨by decide, by decide⟩
    have read : cprDeadline (some (.posix ⟨7, 1500000⟩)) 0 = some ⟨7, 1500000⟩ := by decide
    exact expires_exact_and_monotone.1 (normal 1500000 (by decide) (by decide)) read
      (normal 3000000 (by decide) (by decide)) within
  · have made : cprDeadline (some (.posix ⟨7, 0⟩)) 3 = some ⟨7, 3000000⟩ := by decide
    have first : cprExpires (some (.posix ⟨7, 1000000⟩)) (some ⟨7, 3000000⟩) =
        some ⟨2, 0, 2000⟩ := by decide
    have second : cprExpires (some (.posix ⟨7, 2000000⟩)) (some ⟨7, 3000000⟩) =
        some ⟨1, 0, 1000⟩ := by decide
    exact expires_exact_and_monotone.2 (normal 0 (by decide) (by decide)) (by decide) made
      (normal 1000000 (by decide) (by decide)) (normal 2000000 (by decide) (by decide))
      (by decide) (by decide) first second

end CprFormal.Sync.Expires
