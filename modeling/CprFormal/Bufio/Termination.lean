import CprFormal.Bufio.FirstLine

/-!
# When `cpr_lgetbuf` comes back

A request of zero succeeds without reading when the buffer is full, and the scan index
is behind the last position that can hold the delimiter by then.  So the loop of
`cpr_lgetbuf` goes on for ever once the buffer is full and no delimiter is found in it.
-/

namespace CprFormal.Bufio.Termination

open CprFormal.Library.FlatMemory CprFormal.Library.Search CprFormal.Library.Occurrence
open CprFormal.Strchar.Strlen
open CprFormal.Bufio.Model CprFormal.Bufio.Reader CprFormal.Bufio.Refill
open CprFormal.Bufio.FirstLine
open CprFormal.Bufio.Model.BufioT (bufAt)

/-- A `read()` that delivers some of the bytes left, in a chunk of at most `size + 1`
of them; without any left, it is at the end. -/
def readChunk (left : List UInt8) (size : Nat) (_count : Nat) : ReadResult :=
  .bytes (left.take (size + 1))

/-- The loop of `cpr_lgetbuf` over a descriptor with the bytes `left`; the number of the
pass decides the size of the chunk.  `none` stands for a loop that has used up its
fuel. -/
def lgetbufLoop (d : List UInt8) (outlen : Bool) (sizes : Nat → Nat) :
    Nat → Nat → BufioT → List UInt8 → Nat → Option (Option (List UInt8))
  | 0, _, _, _, _ => none
  | fuel + 1, pass, r, left, scan =>
      match lgetbufPass r d outlen scan (readChunk left (sizes pass)) with
      | .line _ text => some (some text)
      | .null _ => some none
      | .again fill scan =>
          lgetbufLoop d outlen sizes fuel (pass + 1) fill.buf
            (left.drop fill.delivered.length) scan

/-- The bytes that `cpr_lgetbuf` compares with, for any delimiter or `NULL`. -/
def anyDelim : Option CString → List UInt8
  | none => delimBytes (delimText none)
  | some delim => delimBytes delim

/-- `cpr_lgetbuf` -/
def cprLgetbuf (fuel : Nat) (sizes : Nat → Nat) (left : List UInt8) (r : BufioT) (outlen : Bool)
    (delim : Option CString) : Option (Option (List UInt8)) :=
  lgetbufLoop (anyDelim delim) outlen sizes fuel 0 r left r.start

/-- The chunk of the first `read()`, when the buffer is not exhausted. -/
def firstChunk (r : BufioT) (left : List UInt8) (size : Nat) : List UInt8 :=
  (left.take (size + 1)).take (r.bufsize - r.unread.length)

/-- The delimiter is not unread, and the first chunk fills the buffer without one at an
index that is still scanned. -/
structure Stuck (r : BufioT) (d left : List UInt8) (size : Nat) : Prop where
  unread : ¬ d <:+: r.unread
  kept : r.start < r.end_ ∨ r.start = 0
  full : (r.unread ++ firstChunk r left size).length = r.bufsize
  behind : ∀ i, r.unread.length + 1 - d.length + r.start ≤ i →
    ¬ Occurs d (r.unread ++ firstChunk r left size) i

/-! ## Passes -/

/-- An empty delimiter is found at once. -/
theorem pass_empty {r : BufioT} (cursors : Cursors r) (outlen : Bool) (io : Nat → ReadResult) :
    ∃ buf text, lgetbufPass r [] outlen r.start io = .line buf text := by
  have order := cursors.start
  obtain ⟨n, positions⟩ : ∃ n, r.end_ + 1 - (r.start + [].length) = n + 1 :=
    Nat.exists_eq_add_one.mpr (by simp; omega)
  have here : searchUp (matchesAt r.mem (bufAt 0) []) (n + 1) r.start = (r.start, true) :=
    searchUp_eq (Nat.le_refl _) (by omega) rfl fun k low high => by omega
  unfold lgetbufPass
  rw [positions, here]
  exact ⟨_, _, rfl⟩

theorem loop_line {d : List UInt8} {outlen : Bool} {sizes : Nat → Nat} {pass : Nat} {r : BufioT}
    {left : List UInt8} {scan : Nat} {buf : BufioT} {text : List UInt8}
    (found : lgetbufPass r d outlen scan (readChunk left (sizes pass)) = .line buf text)
    (fuel : Nat) :
    lgetbufLoop d outlen sizes (fuel + 1) pass r left scan = some (some text) := by
  unfold lgetbufLoop
  rw [found]

theorem loop_missed {d : List UInt8} {outlen : Bool} {sizes : Nat → Nat} {pass : Nat} {r : BufioT}
    {left : List UInt8} {scan : Nat}
    (missed : Missed r d outlen scan (readChunk left (sizes pass))) (fuel : Nat) :
    lgetbufLoop d outlen sizes (fuel + 1) pass r left scan =
      let fill := cprFillbuf r 0 (readChunk left (sizes pass))
      if fill.ok then
        lgetbufLoop d outlen sizes fuel (pass + 1) fill.buf (left.drop fill.delivered.length)
          (max scan (r.end_ + 1 - d.length))
      else some none := by
  conv_lhs => unfold lgetbufLoop
  rw [missed.pass]
  dsimp only
  cases (cprFillbuf r 0 (readChunk left (sizes pass))).ok with
  | true => rfl
  | false => rfl

/-- A full buffer without a delimiter to be found is scanned for ever. -/
theorem loop_full {d : List UInt8} (nonempty : d ≠ []) (outlen : Bool) (sizes : Nat → Nat)
    (fuel : Nat) {pass : Nat} {r : BufioT} {left : List UInt8} {scan : Nat}
    (cursors : Cursors r) (start : r.start = 0) (full : r.end_ = r.bufsize)
    (none_ : ∀ i, scan ≤ i → ¬ Occurs d r.unread i) :
    lgetbufLoop d outlen sizes fuel pass r left scan = none := by
  induction fuel generalizing pass r left scan with
  | zero => rfl
  | succ fuel ih =>
      rcases pass_cases cursors nonempty outlen (show r.start ≤ scan by omega)
          (readChunk left (sizes pass)) with ⟨buf, text, _, first⟩ | missed
      · exact absurd first.occurs (none_ _ (by have := first.behind; omega))
      · have same : cprFillbuf r 0 (readChunk left (sizes pass)) = ⟨r.terminate, true, none, []⟩ := by
          cases fillbuf_refills cursors (readChunk left (sizes pass)) with
          | full _ _ same => exact same
          | front _ _ short => omega
          | exhausted positive => omega
        rw [loop_missed missed, same]
        refine ih ⟨cursors.start, cursors.end_⟩ start full fun i low => ?_
        rw [terminate_unread]
        exact none_ i (by omega)

/-- The buffer is full, with a chunk behind the bytes that were unread before. -/
structure Refilled (r : BufioT) (chunk : List UInt8) (fill : Fill) : Prop where
  cursors : Cursors fill.buf
  start : fill.buf.start = 0
  end_ : fill.buf.end_ = fill.buf.bufsize
  unread : fill.buf.unread = r.unread ++ chunk

/-- A request of zero that succeeds has filled the buffer with the first chunk. -/
theorem refill_full {r : BufioT} (cursors : Cursors r) {left : List UInt8} {size : Nat}
    (ok : (cprFillbuf r 0 (readChunk left size)).ok = true) :
    Refilled r (firstChunk r left size) (cprFillbuf r 0 (readChunk left size)) := by
  obtain ⟨iff, placed⟩ := refill_chunk cursors (readChunk left size) fun _ => rfl
  obtain ⟨start, delivered⟩ := placed ok
  obtain ⟨_, full⟩ := iff.mp ok
  have filled := fillbuf_filled cursors 0 (readChunk left size)
  have unread := filled.unread
  rw [delivered] at unread
  refine ⟨filled.cursors, start, ?_, unread⟩
  have length := congrArg List.length unread
  rw [unread_length, full, start] at length
  rw [filled.bufsize]
  exact length

/-- The first pass refills a stuck buffer, and then it is scanned for ever. -/
theorem loop_stuck {r : BufioT} (cursors : Cursors r) {d : List UInt8} (nonempty : d ≠ [])
    (outlen : Bool) {left : List UInt8} {sizes : Nat → Nat} (stuck : Stuck r d left (sizes 0))
    (fuel : Nat) : lgetbufLoop d outlen sizes fuel 0 r left r.start = none := by
  cases fuel with
  | zero => rfl
  | succ fuel =>
      rcases pass_cases cursors nonempty outlen (Nat.le_refl _) (readChunk left (sizes 0)) with
        ⟨buf, text, _, first⟩ | missed
      · exact absurd (infix_iff_occurs.mpr ⟨_, first.occurs⟩) stuck.unread
      · have ok := (refill_chunk cursors (readChunk left (sizes 0)) fun _ => rfl).1.mpr
          ⟨stuck.kept, stuck.full⟩
        have refilled := refill_full cursors ok
        rw [loop_missed missed, scan_index cursors]
        dsimp only
        rw [if_pos ok]
        refine loop_full nonempty outlen sizes fuel refilled.cursors refilled.start
          refilled.end_ fun i low => ?_
        rw [refilled.unread]
        exact stuck.behind i low

/-- A buffer that is not stuck takes two passes at most. -/
theorem loop_ends {r : BufioT} (cursors : Cursors r) {d : List UInt8} (nonempty : d ≠ [])
    (outlen : Bool) {left : List UInt8} {sizes : Nat → Nat}
    (free : ¬ Stuck r d left (sizes 0)) :
    ∃ result, lgetbufLoop d outlen sizes 2 0 r left r.start = some result := by
  rcases pass_cases cursors nonempty outlen (Nat.le_refl _) (readChunk left (sizes 0)) with
    ⟨buf, text, found, _⟩ | missed
  · exact ⟨some text, loop_line found 1⟩
  · rw [loop_missed missed, scan_index cursors]
    dsimp only
    cases ok : (cprFillbuf r 0 (readChunk left (sizes 0))).ok with
    | false => exact ⟨none, rfl⟩
    | true =>
        have refilled := refill_full cursors ok
        obtain ⟨kept, full⟩ :=
          (refill_chunk cursors (readChunk left (sizes 0)) fun _ => rfl).1.mp ok
        have start := refilled.start
        rw [if_pos rfl]
        rcases pass_cases refilled.cursors nonempty outlen
            (show _ ≤ r.unread.length + 1 - d.length + r.start by omega)
            (readChunk (left.drop
              (cprFillbuf r 0 (readChunk left (sizes 0))).delivered.length) (sizes 1)) with
          ⟨buf, text, found, _⟩ | missed'
        · exact ⟨some text, loop_line found 0⟩
        · refine absurd ⟨fun unread => ?_, kept, full, fun i low => ?_⟩ free
          · obtain ⟨i, occurs⟩ := infix_iff_occurs.mp unread
            exact missed.unread i (by omega) occurs
          · have none_ := missed'.unread i (by omega)
            rwa [refilled.unread] at none_

/-- Over a descriptor that delivers finitely many bytes in chunks of any sizes and is
then at its end, `cpr_lgetbuf` returns exactly when it does not get stuck in a full
buffer. -/
theorem lgetbuf_returns_iff {r : BufioT} (cursors : Cursors r) (delim : Option CString)
    (outlen : Bool) (left : List UInt8) (sizes : Nat → Nat) :
    (∃ fuel result, cprLgetbuf fuel sizes left r outlen delim = some result) ↔
      ¬ Stuck r (anyDelim delim) left (sizes 0) := by
  unfold cprLgetbuf
  by_cases empty : anyDelim delim = []
  · rw [empty]
    refine ⟨fun _ stuck => stuck.unread (List.nil_infix), fun _ => ?_⟩
    obtain ⟨buf, text, pass⟩ := pass_empty cursors outlen (readChunk left (sizes 0))
    exact ⟨1, some text, loop_line pass 0⟩
  · constructor
    · rintro ⟨fuel, result, returned⟩ stuck
      rw [loop_stuck cursors empty outlen stuck] at returned
      cases returned
    · intro free
      exact ⟨2, loop_ends cursors empty outlen free⟩

/-- Two bytes without a newline are fewer than the buffer holds. -/
theorem lgetbuf_returns_iff_short :
    ∃ fuel result, cprLgetbuf fuel (fun _ => 7) [97, 98] ⟨4, 0, 0, 0, fun _ => 0⟩ true none =
      some result :=
  (lgetbuf_returns_iff (show Cursors ⟨4, 0, 0, 0, fun _ => 0⟩ from ⟨by decide, by decide⟩) none
    true [97, 98] (fun _ => 7)).mpr (fun stuck => absurd stuck.full (by decide))

/-- A line of two bytes in a buffer of two is never returned. -/
theorem lgetbuf_endless :
    ¬ ∀ r : BufioT, Cursors r → ∀ (delim : Option CString) (outlen : Bool) (left : List UInt8)
      (sizes : Nat → Nat),
      ∃ fuel result, cprLgetbuf fuel sizes left r outlen delim = some result := by
  intro claimed
  obtain ⟨fuel, result, returned⟩ := claimed ⟨2, 0, 2, 0, fun _ => 97⟩ ⟨by decide, by decide⟩
    none true [] fun _ => 0
  have endless : cprLgetbuf fuel (fun _ => 0) [] ⟨2, 0, 2, 0, fun _ => 97⟩ true none = none :=
    loop_full (show [10] ≠ [] by decide) true _ fuel ⟨by decide, by decide⟩ rfl rfl
      fun i _ occurs => by
        have member : (10 : UInt8) ∈ [97, 97] := List.mem_of_mem_drop (occurs.subset (by simp))
        exact absurd member (by decide)
  rw [endless] at returned
  cases returned

end CprFormal.Bufio.Termination
