import CprFormal.Bufio.Writer

/-!
# The write area of a buffered stream

`cpr_makebuf` does not assign `put`.  When the block happens to hold zero there,
every sequence of write-side calls stays inside the write area and hands `write()`
only bytes that puts have stored.  When it holds something else, the first flush
hands over bytes that no put stored, and what is larger than `bufsize` puts the
cursor outside the area at once.
-/

namespace CprFormal.Bufio.WriteArea

open CprFormal.Library.FlatMemory CprFormal.Library.Transition
open CprFormal.Bufio.Model CprFormal.Bufio.Writer

/-- The write-side calls, `cpr_fmtbuf` included. -/
inductive Op where
  | plain (op : Writer.Op)
  | fmtbuf (estimated : Nat) (fmt : Option Formatted)

/-- A call with the answer of `write()` should it be asked. -/
structure Call where
  op : Op
  io : WriteResult

def perform (w : BufioT) (call : Call) : Put :=
  match call.op with
  | .plain op => Writer.perform w ⟨op, call.io⟩
  | .fmtbuf estimated fmt => cprFmtbuf w estimated fmt call.io

/-- The bytes a call that returns true has stored. -/
def Op.bytes : Op → List UInt8
  | plain op => op.bytes
  | fmtbuf _ (some (.text bytes)) => bytes
  | fmtbuf _ _ => []

/-- The call comes to its `write()`. -/
def reachesWrite (w : BufioT) : Op → Bool
  | .plain op => Writer.reachesWrite w op
  | .fmtbuf _ none => false
  | .fmtbuf estimated (some _) =>
      decide (estimated ≠ 0) && decide (estimated ≤ w.bufsize) &&
        decide (w.bufsize < w.put + estimated)

/-- A buffer and the history so far: the bytes of the puts that returned true, and
for every `write()` the bytes it was handed with those stored until then. -/
structure State where
  buf : BufioT
  stored : List UInt8
  handed : List (List UInt8 × List UInt8)

def step (s : State) (call : Call) : State :=
  let put := perform s.buf call
  { buf := put.buf
    stored := s.stored ++ if put.ok then call.op.bytes else []
    handed := s.handed ++ if reachesWrite s.buf call.op then [(s.buf.pending, s.stored)] else [] }

/-- The cursor is in bounds, nothing outside `out[0..bufsize)` has changed since `w`,
and every `write()` was handed the last bytes that puts had stored. -/
structure Safe (w : BufioT) (s : State) : Prop where
  put : s.buf.put ≤ s.buf.bufsize
  inside : w.mem.SameOutside s.buf.mem (w.outAt 0) (w.outAt w.bufsize)
  handed : ∀ pair ∈ s.handed, pair.1 <:+ pair.2

/-- The call does not come to its `write()`. -/
def NoWrite (s : State) (call : Call) : Prop := reachesWrite s.buf call.op = false

instance (s : State) (call : Call) : Decidable (NoWrite s call) :=
  inferInstanceAs (Decidable (_ = _))

/-! ## Keeping to the write area -/

/-- What every write-side step keeps. -/
structure Stays (w w' : BufioT) : Prop where
  bufsize : w'.bufsize = w.bufsize
  start : w'.start = w.start
  end_ : w'.end_ = w.end_
  put : w'.put ≤ w'.bufsize
  mem : w.mem.SameOutside w'.mem (w.outAt 0) (w.outAt w.bufsize)

theorem Stays.refl {w : BufioT} (bound : w.put ≤ w.bufsize) : Stays w w :=
  ⟨rfl, rfl, rfl, bound, .refl _ _ _⟩

theorem outAt_congr {w w' : BufioT} (same : w'.bufsize = w.bufsize) (i : Nat) :
    w'.outAt i = w.outAt i := by
  unfold BufioT.outAt
  rw [same]

theorem Stays.trans {w w' w'' : BufioT} (first : Stays w w') (second : Stays w' w'') :
    Stays w w'' := by
  refine ⟨second.bufsize.trans first.bufsize, second.start.trans first.start,
    second.end_.trans first.end_, second.put, first.mem.trans ?_⟩
  have mem := second.mem
  rwa [outAt_congr first.bufsize, outAt_congr first.bufsize, first.bufsize] at mem

theorem flush_stays {w : BufioT} (io : WriteResult) (bound : w.put ≤ w.bufsize) :
    Stays w (cprFlushbuf w io).buf := by
  have put := (flush_bound io bound).2
  unfold cprFlushbuf at put ⊢
  split
  · exact .refl bound
  · rename_i some_pending
    rw [if_neg some_pending] at put
    dsimp only at put ⊢
    cases partly : io.below w.put with
    | true =>
        rw [if_pos partly] at put
        refine ⟨rfl, rfl, rfl, put, ?_⟩
        refine Memory.sameOutside_move _ _ (Nat.le_refl _) ?_
        rw [← outAt_add]
        exact Nat.add_le_add_left (by omega) _
    | false => exact ⟨rfl, rfl, rfl, Nat.zero_le _, .refl _ _ _⟩

/-- Storing behind the pending bytes. -/
theorem store_stays {w : BufioT} {data : List UInt8} (put : Nat) (bound : put ≤ w.bufsize)
    (fits : w.put + data.length ≤ w.bufsize) :
    Stays w { w with mem := w.mem.write (w.outAt w.put) data, put := put } := by
  refine ⟨rfl, rfl, rfl, bound, Memory.sameOutside_write _ _ ?_ ?_⟩
  · exact Nat.add_le_add_left (Nat.zero_le _) _
  · rw [← outAt_add]
    exact Nat.add_le_add_left fits _

theorem putCopy_fits {w : BufioT} {data : List UInt8} (fits : data.length + w.put ≤ w.bufsize) :
    putCopy w data =
      { w with mem := w.mem.write (w.outAt w.put) data, put := w.put + data.length } := by
  unfold putCopy
  rw [if_neg (by omega)]

/-- A flush that returns true has emptied the area. -/
theorem flush_ok {w : BufioT} {io : WriteResult} (ok : (cprFlushbuf w io).ok = true) :
    (cprFlushbuf w io).buf.put = 0 := by
  unfold cprFlushbuf at ok ⊢
  split at ok
  · cases ok
  · rename_i some_pending
    rw [if_neg some_pending]
    dsimp only at ok ⊢
    cases partly : io.below w.put with
    | true =>
        rw [if_pos partly] at ok
        cases ok
    | false => rfl

theorem stores_length (out : Formatted) {estimated : Nat} (some_ : estimated ≠ 0) :
    (out.stores estimated).length ≤ estimated := by
  cases out with
  | error stored => exact List.length_take_le _ _
  | text bytes =>
      simp only [Formatted.stores, List.length_append, List.length_take, List.length_singleton]
      omega

theorem fmtCopy_stays {w : BufioT} {estimated : Nat} (some_ : estimated ≠ 0)
    (fits : w.put + estimated ≤ w.bufsize) (out : Formatted) (taken : List UInt8) :
    Stays w (fmtCopy w estimated out taken).buf := by
  have length := stores_length out some_
  unfold fmtCopy
  cases out with
  | error stored => exact store_stays w.put (by omega) (by omega)
  | text bytes =>
      dsimp only
      split
      · exact store_stays w.put (by omega) (by omega)
      · exact store_stays _ (by omega) (by omega)

theorem xputbuf_stays {w : BufioT} (data : Option (List UInt8)) (io : WriteResult)
    (bound : w.put ≤ w.bufsize) : Stays w (cprXputbuf w data io).buf := by
  have flushed := flush_stays io bound
  unfold cprXputbuf
  cases data with
  | none => exact .refl bound
  | some data =>
      have copied {w' : BufioT} (fits : data.length + w'.put ≤ w'.bufsize) :
          Stays w' (putCopy w' data) := by
        rw [putCopy_fits fits]
        exact store_stays _ (by omega) (by omega)
      dsimp only
      split
      · exact .refl bound
      · split
        · split
          · rename_i short _ ok
            have emptied := flush_ok ok
            have size := flushed.bufsize
            exact flushed.trans (copied (by omega))
          · exact flushed
        · exact copied (by omega)

theorem fmtbuf_stays {w : BufioT} (estimated : Nat) (fmt : Option Formatted) (io : WriteResult)
    (bound : w.put ≤ w.bufsize) : Stays w (cprFmtbuf w estimated fmt io).buf := by
  have flushed := flush_stays io bound
  unfold cprFmtbuf
  cases fmt with
  | none => exact .refl bound
  | some out =>
      dsimp only
      split
      · exact .refl bound
      · rename_i short
        have some_ : estimated ≠ 0 := fun zero => short (.inl zero)
        split
        · split
          · rename_i ok
            have emptied := flush_ok ok
            have size := flushed.bufsize
            exact flushed.trans (fmtCopy_stays some_ (by omega) out _)
          · exact flushed
        · exact fmtCopy_stays some_ (by omega) out _

/-- Every write-side call keeps to the write area and leaves the read side alone. -/
theorem perform_stays {w : BufioT} (call : Call) (bound : w.put ≤ w.bufsize) :
    Stays w (perform w call).buf := by
  obtain ⟨op, io⟩ := call
  cases op with
  | plain op =>
      by_cases flush : op = .flushbuf
      · subst flush
        exact flush_stays io bound
      · change Stays w (Writer.perform w ⟨op, io⟩).buf
        rw [perform_put w flush]
        exact xputbuf_stays _ io bound
  | fmtbuf estimated fmt => exact fmtbuf_stays estimated fmt io bound

/-! ## What is pending -/

/-- A call leaves some of the last pending bytes, all of them unless it comes to its
`write()`, and behind them what it has stored itself. -/
def Grows (w : BufioT) (writes : Bool) (put : Put) (bytes : List UInt8) : Prop :=
  ∃ kept, kept <:+ w.pending ∧ put.buf.pending = kept ++ (if put.ok then bytes else []) ∧
    (writes = false → kept = w.pending)

theorem Grows.refused (w : BufioT) (writes : Bool) (bytes taken : List UInt8) :
    Grows w writes ⟨w, false, taken⟩ bytes :=
  ⟨w.pending, List.suffix_refl _, by simp, fun _ => rfl⟩

/-- A flush keeps a suffix. -/
theorem flush_pending (w : BufioT) (io : WriteResult) :
    (cprFlushbuf w io).buf.pending <:+ w.pending := by
  cases io with
  | error =>
      by_cases empty : w.put = 0
      · unfold cprFlushbuf
        simp only [if_pos empty, List.suffix_refl]
      · rw [flush_error empty, pending_empty rfl]
        exact List.nil_suffix
  | count n => exact ⟨_, (flush_count w n).1⟩

theorem flush_grows (w : BufioT) (io : WriteResult) :
    Grows w (decide (w.put ≠ 0)) (cprFlushbuf w io) [] := by
  refine ⟨_, flush_pending w io, by simp, fun quiet => ?_⟩
  have empty : w.put = 0 := by simpa using quiet
  unfold cprFlushbuf
  rw [if_pos empty]

/-- The flush in front of a put that does not fit. -/
theorem Grows.flushed {w : BufioT} {io : WriteResult} {put : Put} {bytes : List UInt8}
    (stored : (cprFlushbuf w io).ok = true →
      Grows (cprFlushbuf w io).buf false put bytes) :
    Grows w true (if (cprFlushbuf w io).ok then put
      else ⟨(cprFlushbuf w io).buf, false, (cprFlushbuf w io).taken⟩) bytes := by
  cases ok : (cprFlushbuf w io).ok with
  | true =>
      obtain ⟨kept, _, grown, all⟩ := stored ok
      rw [all rfl] at grown
      exact ⟨_, flush_pending w io, grown, nofun⟩
  | false => exact ⟨_, flush_pending w io, by simp, nofun⟩

theorem putCopy_grows {w : BufioT} {data taken : List UInt8}
    (fits : data.length + w.put ≤ w.bufsize) :
    Grows w false ⟨putCopy w data, true, taken⟩ data :=
  ⟨_, List.suffix_refl _, (putCopy_spec w data fits).1, fun _ => rfl⟩

theorem xputbuf_grows {w : BufioT} (data : List UInt8) (io : WriteResult)
    (bound : w.put ≤ w.bufsize) :
    Grows w (needsFlush w data) (cprXputbuf w (some data) io) data := by
  have size := (flush_stays io bound).bufsize
  unfold cprXputbuf needsFlush
  dsimp only
  by_cases long : data.length > w.bufsize
  · rw [if_pos long]
    exact .refused _ _ _ _
  · rw [if_neg long, decide_eq_true (Nat.le_of_not_lt long), Bool.true_and]
    by_cases full : data.length + w.put > w.bufsize
    · rw [if_pos full, decide_eq_true full]
      refine .flushed fun ok => putCopy_grows ?_
      have emptied := flush_ok ok
      omega
    · rw [if_neg full, decide_eq_false full]
      exact putCopy_grows (Nat.le_of_not_lt full)

theorem fmtCopy_grows {w : BufioT} {estimated : Nat} (out : Formatted) (taken : List UInt8) :
    Grows w false (fmtCopy w estimated out taken) (Op.fmtbuf estimated (some out)).bytes := by
  have behind : w.outAt w.put = w.outAt 0 + w.put := by rw [← outAt_add, Nat.zero_add]
  have kept (data : List UInt8) : (w.mem.write (w.outAt w.put) data).slice (w.outAt 0) w.put =
      w.pending :=
    Memory.slice_write_outside _ _ (.inl (Nat.le_of_eq behind.symm))
  refine ⟨_, List.suffix_refl _, ?_, fun _ => rfl⟩
  unfold fmtCopy
  cases out with
  | error stored =>
      change (w.mem.write (w.outAt w.put) _).slice (w.outAt 0) w.put = w.pending ++ []
      rw [kept, List.append_nil]
  | text bytes =>
      dsimp only
      split
      · change (w.mem.write (w.outAt w.put) _).slice (w.outAt 0) w.put = w.pending ++ []
        rw [kept, List.append_nil]
      · rename_i short
        have whole : (Formatted.text bytes).stores estimated = bytes ++ [0] := by
          unfold Formatted.stores
          dsimp only
          rw [List.take_of_length_le (by omega)]
        change (w.mem.write (w.outAt w.put) _).slice (w.outAt 0) (w.put + bytes.length) =
          w.pending ++ bytes
        rw [Memory.slice_append, kept, ← behind, whole, Memory.slice_write_take _ _ _ (by simp),
          List.take_left' rfl]

theorem fmtbuf_grows {w : BufioT} (estimated : Nat) (fmt : Option Formatted)
    (io : WriteResult) :
    Grows w (reachesWrite w (.fmtbuf estimated fmt)) (cprFmtbuf w estimated fmt io)
      (Op.fmtbuf estimated fmt).bytes := by
  cases fmt with
  | none => exact .refused _ _ _ _
  | some out =>
      unfold cprFmtbuf reachesWrite
      dsimp only
      by_cases refused : estimated = 0 ∨ estimated > w.bufsize
      · rw [if_pos refused]
        exact .refused _ _ _ _
      · rw [if_neg refused]
        obtain ⟨some_, fits⟩ := not_or.mp refused
        rw [decide_eq_true some_, decide_eq_true (Nat.le_of_not_lt fits), Bool.true_and,
          Bool.true_and]
        by_cases full : w.put + estimated > w.bufsize
        · rw [if_pos full, decide_eq_true full]
          exact .flushed fun _ => fmtCopy_grows out _
        · rw [if_neg full, decide_eq_false full]
          exact fmtCopy_grows out _

theorem perform_grows {w : BufioT} (call : Call) (bound : w.put ≤ w.bufsize) :
    Grows w (reachesWrite w call.op) (perform w call) call.op.bytes := by
  obtain ⟨op, io⟩ := call
  cases op with
  | plain op =>
      change Grows w (Writer.reachesWrite w op) (Writer.perform w ⟨op, io⟩) op.bytes
      by_cases flush : op = .flushbuf
      · subst flush
        exact flush_grows w io
      · rw [perform_put w flush]
        rcases put_data w flush with ⟨data, handed, own, reaches⟩ | ⟨_, untouched⟩
        · rw [handed, own, reaches]
          exact xputbuf_grows data io bound
        · rw [untouched]
          exact .refused _ _ _ _
  | fmtbuf estimated fmt => exact fmtbuf_grows estimated fmt io

/-! ## Whole runs -/

/-- What every call keeps, wherever `put` began. -/
theorem step_stays {w : BufioT} {s : State} (stays : Stays w s.buf) (call : Call) :
    Stays w (step s call).buf :=
  stays.trans (perform_stays call stays.put)

/-- From an empty area on, what is pending is the last that puts have stored. -/
structure Fresh (w : BufioT) (s : State) : Prop where
  stays : Stays w s.buf
  pending : s.buf.pending <:+ s.stored
  handed : ∀ pair ∈ s.handed, pair.1 <:+ pair.2

theorem step_fresh {w : BufioT} {s : State} (fresh : Fresh w s) (call : Call) :
    Fresh w (step s call) := by
  refine ⟨step_stays fresh.stays call, ?_, ?_⟩
  · obtain ⟨kept, before, grown, _⟩ := perform_grows call fresh.stays.put
    change (perform s.buf call).buf.pending <:+ s.stored ++ _
    rw [grown]
    obtain ⟨earlier, whole⟩ := before.trans fresh.pending
    exact ⟨earlier, by rw [← whole, List.append_assoc]⟩
  · intro pair member
    rcases List.mem_append.mp member with earlier | now
    · exact fresh.handed pair earlier
    · split at now
      · rw [List.mem_singleton.mp now]
        exact fresh.pending
      · cases now

/-- While bytes that no put stored are pending in front, either no `write()` was
called, or one was handed them. -/
structure Stale (w : BufioT) (s : State) : Prop where
  stays : Stays w s.buf
  handed : s.handed = [] ∧ s.buf.put = w.put + s.stored.length ∨
    ∃ pair ∈ s.handed, ¬ pair.1 <:+ pair.2

/-- The bytes handed over are more than the stored ones. -/
theorem stale_pending {w : BufioT} {s : State} (some_stale : w.put ≠ 0)
    (more : s.buf.put = w.put + s.stored.length) : ¬ s.buf.pending <:+ s.stored := by
  intro suffix
  have lengths := suffix.length_le
  simp only [BufioT.pending, Memory.slice_length] at lengths
  omega

theorem step_stale {w : BufioT} {s : State} (some_stale : w.put ≠ 0) (stale : Stale w s)
    (call : Call) : Stale w (step s call) := by
  refine ⟨step_stays stale.stays call, ?_⟩
  rcases stale.handed with ⟨nothing, more⟩ | ⟨pair, member, foreign⟩
  · cases reaches : reachesWrite s.buf call.op with
    | true =>
        refine .inr ⟨(s.buf.pending, s.stored), ?_, stale_pending some_stale more⟩
        simp [step, reaches]
    | false =>
        refine .inl ⟨by simp [step, reaches, nothing], ?_⟩
        obtain ⟨kept, _, grown, all⟩ := perform_grows call stale.stays.put
        have lengths := congrArg List.length grown
        rw [all reaches] at lengths
        simp only [BufioT.pending, List.length_append, Memory.slice_length] at lengths
        change (perform s.buf call).buf.put = w.put + (s.stored ++ _).length
        rw [List.length_append]
        omega
  · exact .inr ⟨pair, List.mem_append_left _ member, foreign⟩

theorem safe_of {w : BufioT} {s : State} (stays : Stays w s.buf)
    (handed : ∀ pair ∈ s.handed, pair.1 <:+ pair.2) : Safe w s :=
  ⟨stays.put, stays.mem, handed⟩

theorem fresh_run {w : BufioT} {s : State} (fresh : Fresh w s) (calls : List Call) :
    Along step (Safe w) s calls := by
  induction calls generalizing s with
  | nil => exact safe_of fresh.stays fresh.handed
  | cons call rest ih => exact ⟨safe_of fresh.stays fresh.handed, ih (step_fresh fresh call)⟩

/-- With foreign bytes pending a run is safe exactly as long as no call comes to a
`write()`. -/
theorem stale_run_iff {w : BufioT} (some_stale : w.put ≠ 0) (bound : w.put ≤ w.bufsize)
    (calls : List Call) :
    Along step (Safe w) ⟨w, [], []⟩ calls ↔ Throughout step NoWrite ⟨w, [], []⟩ calls := by
  have fresh : Stays w w := .refl bound
  refine along_iff_throughout (Stale w) (fun s call stale _ _ => step_stale some_stale stale call)
    ?_ ⟨fresh, .inl ⟨rfl, rfl⟩⟩ (safe_of fresh (by simp)) calls
  intro s call stale safe
  have nothing : s.handed = [] ∧ s.buf.put = w.put + s.stored.length := by
    rcases stale.handed with quiet | ⟨pair, member, foreign⟩
    · exact quiet
    · exact absurd (safe.handed pair member) foreign
  constructor
  · intro kept
    by_contra writes
    have reaches : reachesWrite s.buf call.op = true := by simpa [NoWrite] using writes
    refine stale_pending some_stale nothing.2 ?_
    exact kept.handed (s.buf.pending, s.stored) (by simp [step, reaches])
  · intro quiet
    refine safe_of (step_stays stale.stays call) fun pair member => ?_
    have reaches : reachesWrite s.buf call.op = false := quiet
    simp [step, reaches, nothing.1] at member

/-- For a buffer from `cpr_makebuf`, a sequence of write-side calls stays in bounds and
hands `write()` stored bytes only, exactly when the block held zero in `put`, or a
number up to `bufsize` and no call comes to a `write()`. -/
theorem write_area_iff {fd : Int} {tty : Bool} {bufsize : Nat} {malloc : Nat → Option Block}
    {w : BufioT} (made : cprMakebuf fd tty bufsize malloc = some w) (calls : List Call) :
    Along step (Safe w) ⟨w, [], []⟩ calls ↔
      w.put = 0 ∨ w.put ≤ bufsize ∧ Throughout step NoWrite ⟨w, [], []⟩ calls := by
  have size : w.bufsize = bufsize := by
    unfold cprMakebuf at made
    split at made
    · cases made
    · split at made
      · cases made
      · split at made
        · cases made
          rfl
        · cases made
  rw [← size]
  by_cases empty : w.put = 0
  · refine ⟨fun _ => .inl empty, fun _ => ?_⟩
    have fresh : Stays w w := .refl (by omega)
    refine fresh_run ⟨fresh, ?_, by simp⟩ calls
    simp only [pending_empty empty, List.nil_suffix]
  · constructor
    · intro along
      have bound : w.put ≤ w.bufsize := along.here.put
      exact .inr ⟨bound, (stale_run_iff empty bound calls).mp along⟩
    · rintro (zero | ⟨bound, quiet⟩)
      · exact absurd zero empty
      · exact (stale_run_iff empty bound calls).mpr quiet

/-- Zero happens to be in `put`: a formatted text, a byte that makes a flush
necessary, a short write. -/
theorem write_area_iff_zero :
    Along step (Safe ⟨4, 0, 0, 0, fun _ => 9⟩) ⟨⟨4, 0, 0, 0, fun _ => 9⟩, [], []⟩
      [⟨.fmtbuf 4 (some (.text [1, 2, 3])), .error⟩, ⟨.plain (.xputbuf (some [4, 5])), .count 2⟩,
        ⟨.plain .flushbuf, .count 1⟩] :=
  (write_area_iff (show cprMakebuf 3 true 4 (fun _ => some ⟨0, fun _ => 9⟩) = _ from rfl)
    [⟨.fmtbuf 4 (some (.text [1, 2, 3])), .error⟩, ⟨.plain (.xputbuf (some [4, 5])), .count 2⟩,
      ⟨.plain .flushbuf, .count 1⟩]).mpr (.inl rfl)

/-- Three happens to be in `put`: the first flush hands over three bytes of the block. -/
theorem makebuf_put_unassigned :
    ¬ ∀ (bufsize : Nat) (malloc : Nat → Option Block) (w : BufioT),
      cprMakebuf 3 true bufsize malloc = some w →
      ∀ calls : List Call, Along step (Safe w) ⟨w, [], []⟩ calls := by
  intro claimed
  have safe := claimed 4 (fun _ => some ⟨3, fun _ => 9⟩) ⟨4, 0, 0, 3, fun _ => 9⟩ rfl
    [⟨.plain .flushbuf, .count 3⟩]
  have handed := safe.2.handed ([9, 9, 9], []) (by decide)
  exact absurd handed (by decide)

end CprFormal.Bufio.WriteArea
