import CprFormal.Sync.Model

/-!
# Deadlines on both platforms

On Windows `cpr_deadline` adds the offset to the time in the counter and then calls
`cpr_adjust`, which adds it once more; and without a borrow in between, a negative
offset can leave `tv_nsec` below zero.  The other version only calls `cpr_adjust`.
-/

namespace CprFormal.Sync.Deadline

open CprFormal.Library.SignedInt
open CprFormal.Sync.Model

/-- The time in the counter, with a nanosecond part that may be rounded up to a whole
second. -/
theorem counterTime_total {counter freq : Int} (counted : 0 ≤ counter) (positive : 0 < freq)
    {ts : DeadlineT} (done : counterTime counter freq = some ts) :
    ts.total = (Reading.windows counter freq).nanoseconds ∧
    0 ≤ ts.tvNsec ∧ ts.tvNsec ≤ 1000000000 := by
  unfold counterTime at done
  obtain ⟨scaled, product, same⟩ := Option.bind_eq_some_iff.mp done
  obtain ⟨_, rfl⟩ := checked_eq_some.mp product
  cases same
  rw [Int.tdiv_eq_ediv_of_nonneg counted, Int.tmod_eq_emod_of_nonneg counted]
  have low : 0 ≤ counter % freq := Int.emod_nonneg _ (Int.ne_of_gt positive)
  have high : counter % freq < freq := Int.emod_lt_of_pos _ positive
  have scaled : 0 ≤ counter % freq * 1000000000 := Int.mul_nonneg low (by decide)
  rw [Int.tdiv_eq_ediv_of_nonneg scaled]
  have start : 0 ≤ counter % freq * 1000000000 / freq :=
    Int.ediv_nonneg scaled (Int.le_of_lt positive)
  have stop : counter % freq * 1000000000 / freq < 1000000000 :=
    Int.ediv_lt_of_lt_mul positive (by omega)
  simp only [Reading.nanoseconds, DeadlineT.total]
  generalize counter % freq * 1000000000 / freq = nsec at start stop ⊢
  rw [Int.tdiv_eq_ediv_of_nonneg (by omega)]
  omega

/-- On Windows the offset is in the deadline twice. -/
theorem windows_total {counter freq : Int} (counted : 0 ≤ counter) (positive : 0 < freq)
    {ms : Int} {ts : DeadlineT} (done : cprDeadline (some (.windows counter freq)) ms = some ts) :
    ts.total = (Reading.windows counter freq).nanoseconds + 2 * (ms * 1000000) ∧
    (ms = 0 → ts.Normalised) := by
  unfold cprDeadline at done
  obtain ⟨read, time, done⟩ := Option.bind_eq_some_iff.mp done
  obtain ⟨added, sum, done⟩ := Option.bind_eq_some_iff.mp done
  obtain ⟨carried, carry_, adjusted⟩ := Option.bind_eq_some_iff.mp done
  obtain ⟨reading, low, high⟩ := counterTime_total counted positive time
  obtain ⟨once, _⟩ := addMs_total sum
  obtain ⟨twice, normal⟩ := adjust_total adjusted
  have kept : carried.total = added.total := by
    unfold carryOnly at carry_
    split at carry_
    · exact (carry_total carry_).1
    · cases carry_
      rfl
  refine ⟨by omega, fun zero => normal ?_⟩
  -- Without an offset only the rounding can make a whole second, which is carried.
  have unchanged : added.tvNsec = read.tvNsec := by
    unfold addMs at sum
    obtain ⟨sec, _, sum⟩ := Option.bind_eq_some_iff.mp sum
    obtain ⟨nsec, nanoseconds, same⟩ := Option.bind_eq_some_iff.mp sum
    obtain ⟨_, rfl⟩ := checked_eq_some.mp nanoseconds
    cases same
    simp [zero]
  unfold DeadlineT.Normalised
  unfold carryOnly at carry_
  split at carry_
  · have nsec := (carry_total carry_).2
    omega
  · cases carry_
    omega

/-- The deadline is normalised and the offset is in it once. -/
def Exact (reading : Reading) (ms : Int) (ts : DeadlineT) : Prop :=
  ts.Normalised ∧ ts.total = reading.nanoseconds + ms * 1000000

/-- A deadline is exact if it was not made on Windows or has no offset, and not
otherwise. -/
theorem deadline_exact_iff {reading : Reading} (valid : reading.Valid) {ms : Int}
    {ts : DeadlineT} (done : cprDeadline (some reading) ms = some ts) :
    Exact reading ms ts ↔ reading.Posix ∨ ms = 0 := by
  cases reading with
  | posix now =>
      obtain ⟨total, normal⟩ := adjust_total done
      exact ⟨fun _ => .inl trivial, fun _ => ⟨normal valid, total⟩⟩
  | windows counter freq =>
      obtain ⟨total, normal⟩ := windows_total valid.1 valid.2 done
      constructor
      · rintro ⟨_, exact_⟩
        exact .inr (by omega)
      · rintro (posix | zero)
        · cases posix
        · exact ⟨normal zero, by omega⟩

/-- A quarter of a second after a normalised time. -/
theorem deadline_exact_iff_quarter :
    Exact (.posix ⟨1, 900000000⟩) 250 ⟨2, 150000000⟩ :=
  (deadline_exact_iff (show (Reading.posix ⟨1, 900000000⟩).Valid from ⟨by decide, by decide⟩)
    (show cprDeadline _ 250 = some ⟨2, 150000000⟩ by decide)).mpr (.inl trivial)

/-- One millisecond from a counter of ten megahertz is two. -/
theorem deadline_windows_twice :
    ¬ ∀ reading : Reading, reading.Valid → ∀ ms ts, cprDeadline (some reading) ms = some ts →
      Exact reading ms ts := by
  intro claimed
  have exact_ := claimed (.windows 10000000 10000000) ⟨by decide, by decide⟩ 1 ⟨1, 2000000⟩
    (by decide)
  exact absurd exact_.2 (by decide)

end CprFormal.Sync.Deadline
