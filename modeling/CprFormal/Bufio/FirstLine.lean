import CprFormal.Bufio.Refill
import CprFormal.Library.Occurrence

/-!
# The line that `cpr_lgetbuf` returns

The scan index of `cpr_lgetbuf` is a position in the buffer.  When `cpr_fillbuf` moves
the unread bytes to the front it is left where it was, so as many positions of the
stream are skipped as there were bytes in front of the unread ones.
-/

namespace CprFormal.Bufio.FirstLine

open CprFormal.Library.FlatMemory CprFormal.Library.Search CprFormal.Library.Occurrence
open CprFormal.Strchar.Strlen
open CprFormal.Bufio.Model CprFormal.Bufio.Reader CprFormal.Bufio.Refill
open CprFormal.Bufio.Model.BufioT (bufAt)

/-- What a call of `cpr_lgetbuf` gives back and leaves, and the bytes that `read()`
delivered to it. -/
structure LineGet where
  result : Option (List UInt8)
  buf : BufioT
  delivered : List UInt8

/-- The loop of `cpr_lgetbuf` over a script with the answer of `read()` in each pass;
`none` stands for a loop that goes on behind the script. -/
def lgetbufRun (d : List UInt8) (outlen : Bool) :
    List (Nat → ReadResult) → BufioT → Nat → Option LineGet
  | [], _, _ => none
  | io :: script, r, scan =>
      match lgetbufPass r d outlen scan io with
      | .line buf text => some ⟨some text, buf, []⟩
      | .null fill => some ⟨none, fill.buf, fill.delivered⟩
      | .again fill scan =>
          (lgetbufRun d outlen script fill.buf scan).map fun get =>
            { get with delivered := fill.delivered ++ get.delivered }

/-- `cpr_lgetbuf` -/
def cprLgetbuf (script : List (Nat → ReadResult)) (r : BufioT) (outlen : Bool)
    (delim : Option Delim) : Option LineGet :=
  lgetbufRun (delimBytes (delimText delim)) outlen script r r.start

/-- The positions of a delimiter in the buffer are its occurrences in the unread bytes. -/
theorem occurs_unread {r : BufioT} {d : List UInt8} {i : Nat}
    (inside : r.start + i + d.length ≤ r.end_) :
    Occurs d r.unread i ↔ r.mem.slice (bufAt 0 + (r.start + i)) d.length = d := by
  have address : bufAt 0 + (r.start + i) = bufAt r.start + i := by
    unfold bufAt
    omega
  unfold BufioT.unread
  rw [address, occurs_slice (by omega)]

/-- A pass that finds no delimiter from `scan` on. -/
structure Missed (r : BufioT) (d : List UInt8) (outlen : Bool) (scan : Nat)
    (io : Nat → ReadResult) : Prop where
  unread : ∀ i, scan - r.start ≤ i → ¬ Occurs d r.unread i
  pass : lgetbufPass r d outlen scan io =
    if (cprFillbuf r 0 io).ok then
      .again (cprFillbuf r 0 io) (max scan (r.end_ + 1 - d.length))
    else .null (cprFillbuf r 0 io)

/-- The scan index behind a first pass without a delimiter. -/
theorem scan_index {r : BufioT} (cursors : Cursors r) (d : List UInt8) :
    max r.start (r.end_ + 1 - d.length) = r.unread.length + 1 - d.length + r.start := by
  have order := cursors.start
  rw [unread_length]
  omega

/-- A pass returns what lies before the first delimiter from `scan` on, or refills. -/
theorem pass_cases {r : BufioT} (cursors : Cursors r) {d : List UInt8} (nonempty : d ≠ [])
    (outlen : Bool) {scan : Nat} (behind : r.start ≤ scan) (io : Nat → ReadResult) :
    (∃ buf text, lgetbufPass r d outlen scan io = .line buf text ∧
      FirstFrom (scan - r.start) d r.unread text) ∨
    Missed r d outlen scan io := by
  have positive := List.length_pos_of_ne_nil nonempty
  have order := cursors.start
  unfold lgetbufPass
  cases search : searchUp (matchesAt r.mem (bufAt 0) d) (r.end_ + 1 - (scan + d.length)) scan with
  | mk stop hit =>
      cases hit with
      | true =>
          obtain ⟨low, inside, matched, before⟩ := scan_found search
          rw [← bufAt_add, Nat.zero_add] at matched
          have length : (r.mem.slice (bufAt r.start) (stop - r.start)).length =
              stop - r.start := Memory.slice_length _ _ _
          refine .inl ⟨_, _, rfl, ⟨?_, by omega, fun i start early occurs => ?_⟩⟩
          · rw [unread_line (by omega) inside matched, ← List.append_assoc]
            exact List.prefix_append _ _
          · rw [length] at early
            exact before (r.start + i) (by omega) (by omega) ((occurs_unread (by omega)).mp occurs)
      | false =>
          obtain ⟨stopped, tested⟩ := scan_missed search
          refine .inr ⟨fun i start occurs => ?_, ?_⟩
          · have inside := occurs.inside nonempty
            rw [unread_length] at inside
            exact tested (r.start + i) (by omega) (by omega)
              ((occurs_unread (by omega)).mp occurs)
          · rw [← stopped]
            unfold lgetbufPass
            rw [search]

/-- From a buffer whose unread bytes are in front, a line ends at the first delimiter
from `scan` on; from an exhausted one no line comes. -/
theorem run_front {d : List UInt8} (nonempty : d ≠ []) (outlen : Bool)
    {script : List (Nat → ReadResult)} {r : BufioT} {scan : Nat} {get : LineGet}
    {text : List UInt8} (cursors : Cursors r) (front : r.start = 0 ∨ r.start = r.end_)
    (behind : r.start ≤ scan) (returned : lgetbufRun d outlen script r scan = some get)
    (line : get.result = some text) :
    r.start = 0 ∧ FirstFrom scan d (r.unread ++ get.delivered) text := by
  induction script generalizing r scan get with
  | nil => cases returned
  | cons io script ih =>
      unfold lgetbufRun at returned
      rcases pass_cases cursors nonempty outlen behind io with ⟨buf, found, pass, first⟩ | missed
      · rw [pass] at returned
        cases returned
        cases line
        have some_ := first.begins.length_le
        have positive := List.length_pos_of_ne_nil nonempty
        rw [List.length_append, unread_length] at some_
        have start : r.start = 0 := by omega
        rw [start, Nat.sub_zero] at first
        rw [List.append_nil]
        exact ⟨start, first⟩
      · rw [missed.pass] at returned
        cases ok : (cprFillbuf r 0 io).ok with
        | false =>
            rw [ok] at returned
            cases returned
            cases line
        | true =>
            rw [ok] at returned
            obtain ⟨later, more, rfl⟩ := Option.map_eq_some_iff.mp returned
            have filled := fillbuf_filled cursors 0 io
            have ahead := filled.start
            rcases refill_start cursors ok with ⟨start', kept⟩ | ⟨gap, empty, same, same'⟩
            · have start : r.start = 0 := by omega
              obtain ⟨_, first⟩ := ih filled.cursors (.inl start') (by omega) more line
              rw [filled.unread, List.append_assoc] at first
              refine ⟨start, first.earlier (Nat.le_max_left _ _) fun i low high occurs => ?_⟩
              have inside : i + d.length ≤ r.unread.length := by
                rw [unread_length]
                omega
              exact missed.unread i (by omega) ((occurs_append inside).mp occurs)
            · have none := (ih filled.cursors (.inr (by omega)) (by omega) more line).1
              omega

/-- The delimiter is in the unread bytes, or nothing lies in front of them, or it does
not occur in the stream at an index that the scan skips. -/
def Aligned (r : BufioT) (d stream : List UInt8) : Prop :=
  r.start = 0 ∨ d <:+: r.unread ∨
    ∀ i, r.unread.length + 1 - d.length ≤ i →
      i < r.unread.length + 1 - d.length + r.start → ¬ Occurs d stream i

/-- Before the first refill no occurrence is skipped; after it, those from the first
position that was not tested on to as many behind it as there were bytes in front. -/
theorem run_first_iff {r : BufioT} (cursors : Cursors r) {d : List UInt8} (nonempty : d ≠ [])
    (outlen : Bool) {script : List (Nat → ReadResult)} {get : LineGet} {text : List UInt8}
    (returned : lgetbufRun d outlen script r r.start = some get)
    (line : get.result = some text) :
    FirstFrom 0 d (r.unread ++ get.delivered) text ↔
      Aligned r d (r.unread ++ get.delivered) := by
  have order := cursors.start
  cases script with
  | nil => cases returned
  | cons io script =>
      unfold lgetbufRun at returned
      rcases pass_cases cursors nonempty outlen (Nat.le_refl _) io with
        ⟨buf, found, pass, first⟩ | missed
      · rw [pass] at returned
        cases returned
        cases line
        rw [Nat.sub_self] at first
        rw [List.append_nil]
        have occurs : d <:+: r.unread := (List.suffix_append _ _).isInfix.trans first.begins.isInfix
        exact ⟨fun _ => .inr (.inl occurs), fun _ => first⟩
      · rw [missed.pass] at returned
        have unread (i : Nat) : ¬ Occurs d r.unread i := missed.unread i (by omega)
        cases ok : (cprFillbuf r 0 io).ok with
        | false =>
            rw [ok] at returned
            cases returned
            cases line
        | true =>
            rw [ok] at returned
            obtain ⟨later, more, rfl⟩ := Option.map_eq_some_iff.mp returned
            have filled := fillbuf_filled cursors 0 io
            rcases refill_start cursors ok with ⟨start', _⟩ | ⟨gap, empty, same, same'⟩
            · obtain ⟨_, first⟩ :=
                run_front nonempty outlen filled.cursors (.inl start') (by omega) more line
              rw [filled.unread, List.append_assoc] at first
              rw [scan_index cursors] at first
              dsimp only
              constructor
              · intro whole
                refine .inr (.inr fun i _ high => whole.before i (Nat.zero_le _) ?_)
                exact Nat.lt_of_lt_of_le high first.behind
              · intro aligned
                refine first.earlier (Nat.zero_le _) fun i _ high occurs => ?_
                by_cases early : i < r.unread.length + 1 - d.length
                · exact unread i ((occurs_append (by omega)).mp occurs)
                · rcases aligned with start | inside | window
                  · omega
                  · obtain ⟨k, here⟩ := infix_iff_occurs.mp inside
                    exact unread k here
                  · exact window i (by omega) high occurs
            · have none :=
                (run_front nonempty outlen filled.cursors (.inr (by omega)) (by omega) more line).1
              omega

/-- A line that `cpr_lgetbuf` returns is the first one of the stream exactly if its
buffer is aligned. -/
theorem lgetbuf_first_iff {r : BufioT} (cursors : Cursors r) (delim : Delim)
    (short : delim.text.length ≤ 16) (outlen : Bool) (script : List (Nat → ReadResult))
    {text delivered : List UInt8} {buf : BufioT}
    (returned : cprLgetbuf script r outlen (some delim) = some ⟨some text, buf, delivered⟩) :
    FirstFrom 0 delim.text.bytes (r.unread ++ delivered) text ↔
      Aligned r delim.text.bytes (r.unread ++ delivered) := by
  unfold cprLgetbuf at returned
  rw [delimText, delimBytes_short short] at returned
  exact run_first_iff cursors delim.nonempty outlen returned rfl

/-- A line that was read before the call. -/
theorem lgetbuf_first_iff_unread :
    FirstFrom 0 [10] ((⟨4, 1, 3, 0, fun i => if i = 97 then 97 else 10⟩ : BufioT).unread ++ [])
      [97] :=
  (lgetbuf_first_iff (show Cursors ⟨4, 1, 3, 0, fun i => if i = 97 then 97 else 10⟩ from
      ⟨by decide, by decide⟩) ⟨⟨[10], by simp⟩, by simp⟩ (by decide) true
    [fun _ => .error] (show cprLgetbuf _ _ true _ = some ⟨some [97], _, []⟩ from rfl)).mpr
    (.inr (.inl ⟨[97], [], by decide⟩))

/-- With two bytes in front of an unread `"a"`, the stream `"a\nb\n"` gives the line
`"a\nb"`. -/
theorem lgetbuf_skips :
    ¬ ∀ (r : BufioT), Cursors r → ∀ (delim : Delim), delim.text.length ≤ 16 →
      ∀ (outlen : Bool) (script : List (Nat → ReadResult)) (text delivered : List UInt8)
        (buf : BufioT),
        cprLgetbuf script r outlen (some delim) = some ⟨some text, buf, delivered⟩ →
        FirstFrom 0 delim.text.bytes (r.unread ++ delivered) text := by
  intro claimed
  have first := claimed ⟨4, 2, 3, 0, fun _ => 97⟩ ⟨by decide, by decide⟩
    ⟨⟨[10], by simp⟩, by simp⟩ (by decide) true
    [fun _ => .bytes [10, 98, 10], fun _ => .error] [97, 10, 98] [10, 98, 10] _ rfl
  exact first.before 1 (Nat.zero_le _) (by decide) (by unfold Occurs; decide)

end CprFormal.Bufio.FirstLine
