import Mathlib.Algebra.Order.Ring.Int
import CprFormal.Sync.Model

/-!
# Adjusting a deadline

The nanosecond count determines a normalised deadline.  `cpr_adjust` divides with
truncation, so the remainder that goes to `tv_nsec` has the sign of the offset; one
carry or one borrow is then enough, and it fails only where the seconds of the new
count do not fit into `tv_sec`.
-/

namespace CprFormal.Sync.Adjust

open CprFormal.Library.SignedInt
open CprFormal.Sync.Model

/-- The seconds of a nanosecond count fit into `tv_sec`. -/
def Held (count : Int) : Prop :=
  -2 ^ 63 ≤ count / 1000000000 ∧ count / 1000000000 < 2 ^ 63

/-- The normalised deadline of a nanosecond count. -/
def ofTotal (count : Int) : DeadlineT := ⟨count / 1000000000, count % 1000000000⟩

theorem ofTotal_normalised (count : Int) : (ofTotal count).Normalised :=
  ⟨Int.emod_nonneg count (by decide), Int.emod_lt_of_pos count (by decide)⟩

theorem total_ofTotal (count : Int) : (ofTotal count).total = count := by
  unfold ofTotal DeadlineT.total
  exact Int.ediv_mul_add_emod count 1000000000

theorem ofTotal_total {ts : DeadlineT} (normal : ts.Normalised) : ofTotal ts.total = ts := by
  obtain ⟨sec, nsec⟩ := ts
  obtain ⟨low, high⟩ := normal
  unfold ofTotal DeadlineT.total
  rw [DeadlineT.mk.injEq]
  dsimp only at *
  omega

/-- The sums of `cpr_adjust` are defined. -/
theorem addMs_eq {long : Nat} (wide : 32 ≤ long) {ts : DeadlineT} (normal : ts.Normalised)
    {ms : Int} (low : -2 ^ 63 ≤ ts.tvSec + ms.tdiv 1000)
    (high : ts.tvSec + ms.tdiv 1000 < 2 ^ 63) :
    addMs long ts ms =
      some ⟨ts.tvSec + ms.tdiv 1000, ts.tvNsec + ms.tmod 1000 * 1000000⟩ := by
  have seconds : checked 64 (ts.tvSec + ms.tdiv 1000) = some _ :=
    checked_eq_some.mpr ⟨⟨low, high⟩, rfl⟩
  have room : (2 : Int) ^ 31 ≤ 2 ^ (long - 1) := pow_le_pow_right₀ (by decide) (by omega)
  obtain ⟨-, least, most⟩ := divided ms (show (0 : Int) < 1000 by decide)
  obtain ⟨start, stop⟩ := normal
  have nanoseconds : checked long (ts.tvNsec + ms.tmod 1000 * 1000000) = some _ :=
    checked_eq_some.mpr ⟨by omega, rfl⟩
  unfold addMs
  rw [seconds, nanoseconds]
  rfl

theorem carry_defined {ts : DeadlineT} (low : -2 ^ 63 ≤ ts.tvSec)
    (high : ts.tvSec + 1 < 2 ^ 63) : ∃ ts', carry ts = some ts' := by
  have fits : checked 64 (ts.tvSec + 1) = some _ := checked_eq_some.mpr ⟨by omega, rfl⟩
  unfold carry
  rw [fits]
  exact ⟨_, rfl⟩

theorem borrow_defined {ts : DeadlineT} (low : -2 ^ 63 ≤ ts.tvSec - 1)
    (high : ts.tvSec < 2 ^ 63) : ∃ ts', borrow ts = some ts' := by
  have fits : checked 64 (ts.tvSec - 1) = some _ := checked_eq_some.mpr ⟨by omega, rfl⟩
  unfold borrow
  rw [fits]
  exact ⟨_, rfl⟩

/-- Nothing overflows in `cpr_adjust` when `tv_sec` can hold the result: the truncated
quotient lies between zero and the offset, so no sum is further out than both ends. -/
theorem cprAdjust_defined {long : Nat} (wide : 32 ≤ long) {ts : DeadlineT}
    (normal : ts.Normalised) (held : Held ts.total) {ms : Int}
    (held' : Held (ts.total + ms * 1000000)) : ∃ ts', cprAdjust long ts ms = some ts' := by
  obtain ⟨sum, least, most⟩ := divided ms (show (0 : Int) < 1000 by decide)
  obtain ⟨positive, negative⟩ := tmod_sign ms 1000
  have total : ts.total = ts.tvSec * 1000000000 + ts.tvNsec := rfl
  obtain ⟨start, stop⟩ := id normal
  unfold Held at held held'
  have added := @addMs_eq long wide ts normal ms (by omega) (by omega)
  unfold cprAdjust
  rw [added, Option.bind_eq_bind, Option.bind_some]
  split
  · rename_i carries
    dsimp only at carries
    exact carry_defined (by dsimp only; omega) (by dsimp only; omega)
  · rename_i below
    dsimp only at below
    split
    · rename_i borrows
      dsimp only at borrows
      exact borrow_defined (by dsimp only; omega) (by dsimp only; omega)
    · exact ⟨_, rfl⟩

/-- `cpr_adjust` gives the deadline of the new count whenever `tv_sec` can hold it. -/
theorem cprAdjust_eq {long : Nat} (wide : 32 ≤ long) {ts : DeadlineT} (normal : ts.Normalised)
    (held : Held ts.total) {ms : Int} (held' : Held (ts.total + ms * 1000000)) :
    cprAdjust long ts ms = some (ofTotal (ts.total + ms * 1000000)) := by
  obtain ⟨ts', done⟩ := cprAdjust_defined wide normal held held'
  obtain ⟨total, kept⟩ := adjust_total done
  rw [done, ← total, ofTotal_total (kept normal)]

/-- `tv_sec` of a result has been checked. -/
theorem cprAdjust_checked {long : Nat} {ts ts' : DeadlineT} {ms : Int}
    (done : cprAdjust long ts ms = some ts') : -2 ^ 63 ≤ ts'.tvSec ∧ ts'.tvSec < 2 ^ 63 := by
  obtain ⟨added, sum, done⟩ := Option.bind_eq_some_iff.mp done
  split at done
  · obtain ⟨sec, fits, same⟩ := Option.bind_eq_some_iff.mp done
    cases same
    obtain ⟨inside, rfl⟩ := checked_eq_some.mp fits
    exact inside
  · split at done
    · obtain ⟨sec, fits, same⟩ := Option.bind_eq_some_iff.mp done
      cases same
      obtain ⟨inside, rfl⟩ := checked_eq_some.mp fits
      exact inside
    · cases done
      obtain ⟨sec, fits, sum⟩ := Option.bind_eq_some_iff.mp sum
      obtain ⟨nsec, -, same⟩ := Option.bind_eq_some_iff.mp sum
      cases same
      obtain ⟨inside, rfl⟩ := checked_eq_some.mp fits
      exact inside

theorem cprAdjust_eq_some_iff {long : Nat} (wide : 32 ≤ long) {ts ts' : DeadlineT}
    (normal : ts.Normalised) (held : Held ts.total) {ms : Int} :
    cprAdjust long ts ms = some ts' ↔
      Held (ts.total + ms * 1000000) ∧ ts' = ofTotal (ts.total + ms * 1000000) := by
  constructor
  · intro done
    obtain ⟨total, kept⟩ := adjust_total done
    have same : ts' = ofTotal (ts.total + ms * 1000000) := by
      rw [← total, ofTotal_total (kept normal)]
    have inside := cprAdjust_checked done
    rw [same] at inside
    exact ⟨inside, same⟩
  · rintro ⟨held', rfl⟩
    exact cprAdjust_eq wide normal held held'

/-- Two adjustments are one by the sum of their offsets. -/
theorem cprAdjust_bind {long : Nat} (wide : 32 ≤ long) {ts : DeadlineT} (normal : ts.Normalised)
    (held : Held ts.total) {a : Int} (b : Int) (held' : Held (ts.total + a * 1000000)) :
    ((cprAdjust long ts a).bind fun ts' => cprAdjust long ts' b) = cprAdjust long ts (a + b) := by
  have normal' := ofTotal_normalised (ts.total + a * 1000000)
  have total := total_ofTotal (ts.total + a * 1000000)
  have sum : ts.total + a * 1000000 + b * 1000000 = ts.total + (a + b) * 1000000 := by
    rw [Int.add_mul, Int.add_assoc]
  rw [cprAdjust_eq wide normal held held', Option.bind_some]
  ext ts'
  rw [cprAdjust_eq_some_iff wide normal held,
    cprAdjust_eq_some_iff wide normal' (total.symm ▸ held'), total, sum]

/-- Of a sequence of offsets only the sum matters. -/
theorem adjustments_eq {long : Nat} (wide : 32 ≤ long) (offsets : List Int) {count : Int}
    (held : ∀ k ≤ offsets.length, Held (count + (offsets.take k).sum * 1000000)) :
    offsets.foldlM (cprAdjust long) (ofTotal count) =
      some (ofTotal (count + offsets.sum * 1000000)) := by
  induction offsets generalizing count with
  | nil =>
      rw [List.sum_nil, Int.zero_mul, Int.add_zero]
      rfl
  | cons ms rest ih =>
      have start : Held count := by simpa using held 0 (Nat.zero_le _)
      have first : Held (count + ms * 1000000) := by simpa using held 1 (by simp)
      have later : ∀ k ≤ rest.length,
          Held (count + ms * 1000000 + (rest.take k).sum * 1000000) := by
        intro k inside
        have here := held (k + 1) (Nat.succ_le_succ inside)
        rwa [List.take_succ_cons, List.sum_cons, Int.add_mul, ← Int.add_assoc] at here
      have total := total_ofTotal count
      have adjusted := @cprAdjust_eq long wide (ofTotal count) (ofTotal_normalised count)
        (total.symm ▸ start) ms (total.symm ▸ first)
      rw [total] at adjusted
      rw [List.foldlM_cons, adjusted, Option.bind_eq_bind, Option.bind_some, ih later,
        List.sum_cons, Int.add_mul, Int.add_assoc]

/-- The real time ahead by what `cpr_expires` reports. -/
theorem cprRealtime_exact {clock : Option Reading} {now before ts : DeadlineT}
    {deadline : Option DeadlineT} (normal : now.Normalised)
    (done : cprRealtime clock (some now) deadline before = some (true, ts)) :
    ∃ left, cprExpires clock deadline = some left ∧ ts.Normalised ∧
      ts.total = now.total + left.ms * 1000000 := by
  obtain ⟨left, expires, done⟩ := Option.bind_eq_some_iff.mp done
  split at done
  · cases done
  · obtain ⟨ts', adjusted, same⟩ := Option.bind_eq_some_iff.mp done
    cases same
    obtain ⟨total, kept⟩ := adjust_total adjusted
    exact ⟨left, expires, kept normal, total⟩

/-- `cpr_adjust` is exact; adjustments add up; deadlines depend on the clock and the sum
of the offsets; `cpr_realtime` moves the real time by the milliseconds that are left. -/
theorem adjustments_exact {ts : DeadlineT} (normal : ts.Normalised) (held : Held ts.total) :
    (∀ {long : Nat}, 32 ≤ long → ∀ {ms : Int}, Held (ts.total + ms * 1000000) →
      ∃ ts', cprAdjust long ts ms = some ts' ∧ ts'.Normalised ∧
        ts'.total = ts.total + ms * 1000000) ∧
    (∀ {long : Nat}, 32 ≤ long → ∀ {a b : Int}, Held (ts.total + a * 1000000) →
      ((cprAdjust long ts a).bind fun ts' => cprAdjust long ts' b) =
        cprAdjust long ts (a + b)) ∧
    (∀ {ms : Int} {offsets : List Int},
      (∀ k ≤ offsets.length, Held (ts.total + (ms + (offsets.take k).sum) * 1000000)) →
      ((cprDeadline (some (.posix ts)) ms).bind fun d => offsets.foldlM (cprAdjust 64) d) =
        some (ofTotal (ts.total + (ms + offsets.sum) * 1000000))) ∧
    ∀ {clock : Option Reading} {deadline : Option DeadlineT} {before ts' : DeadlineT},
      cprRealtime clock (some ts) deadline before = some (true, ts') →
      ∃ left, cprExpires clock deadline = some left ∧ ts'.Normalised ∧
        ts'.total = ts.total + left.ms * 1000000 := by
  refine ⟨?_, ?_, ?_, fun done => cprRealtime_exact normal done⟩
  · intro long wide ms held'
    exact ⟨_, cprAdjust_eq wide normal held held', ofTotal_normalised _, total_ofTotal _⟩
  · intro long wide a b held'
    exact cprAdjust_bind wide normal held b held'
  · intro ms offsets inside
    have first : Held (ts.total + ms * 1000000) := by simpa using inside 0 (Nat.zero_le _)
    have made : cprDeadline (some (.posix ts)) ms = some (ofTotal (ts.total + ms * 1000000)) :=
      cprAdjust_eq (by decide) normal held first
    have later : ∀ k ≤ offsets.length,
        Held (ts.total + ms * 1000000 + (offsets.take k).sum * 1000000) := by
      intro k low
      have here := inside k low
      rwa [Int.add_mul, ← Int.add_assoc] at here
    rw [made, Option.bind_some, adjustments_eq (by decide) offsets later, Int.add_mul,
      Int.add_assoc]

/-- Half a second behind a normalised time, and back to it. -/
theorem adjustments_exact_back :
    ((cprAdjust 64 ⟨5, 700000000⟩ 500).bind fun ts => cprAdjust 64 ts (-500)) =
      cprAdjust 64 ⟨5, 700000000⟩ (500 + -500) := by
  have normal : (⟨5, 700000000⟩ : DeadlineT).Normalised := ⟨by decide, by decide⟩
  have held : Held 5700000000 := ⟨by decide, by decide⟩
  have held' : Held 6200000000 := ⟨by decide, by decide⟩
  exact (adjustments_exact normal held).2.1 (by decide) held'

end CprFormal.Sync.Adjust
