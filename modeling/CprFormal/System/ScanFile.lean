import CprFormal.Keyfile.Chunks
import CprFormal.Keyfile.Grammar
import CprFormal.Library.Lines

/-!
# `scan_file`

`scan_file` reads a stream with `fgets` and hands what its buffer holds to a callback, until
the callback refuses or the stream ends.  What the callback is given are the lines of the
stream, cut to the buffer, one after the other and numbered from 1.
-/

namespace CprFormal.System.ScanFile

open CprFormal.Keyfile.Chunks
open CprFormal.Keyfile.Grammar (textAt_bytes)
open CprFormal.Keyfile.Model (takeLine textAt)
open CprFormal.Library.FlatMemory CprFormal.Library.Lines CprFormal.Library.Lists
open CprFormal.Strchar.Strlen

/-- `FILE`: the bytes that are left, and `feof`. -/
structure FileT where
  rest : List UInt8
  eof : Bool
  deriving DecidableEq

/-- `fgets` into a buffer of `size` bytes, at least 2: what it stores before the terminator,
or `NULL`. -/
def fgets (size : Nat) (fp : FileT) : Option (List UInt8) × FileT :=
  let (line, rest) := takeLine (size - 1) fp.rest
  let eof := decide (line.length < size - 1) && line.getLast? != some 10
  (if line = [] ∧ eof = true then none else some line, ⟨rest, fp.eof || eof⟩)

variable {σ : Type}

/-- A callback with a state of its own: what it does with a text and a count. -/
abbrev Proc (σ : Type) : Type := σ → CString → Nat → σ × Bool

/-- What `scan_file` returns, the stream, the state of the callback and the texts that it has
been given. -/
structure Scan (σ : Type) where
  count : Nat
  fp : FileT
  state : σ
  texts : List CString

/-- `while (!feof(fp)) ...` over the buffer `lbuf`; `none` when the fuel is used up. -/
def scanLoop (proc : Proc σ) (size : Nat) :
    Nat → Memory UInt8 → FileT → Nat → σ → List CString → Option (Scan σ)
  | 0, _, _, _, _, _ => none
  | fuel + 1, lbuf, fp, count, state, texts =>
      if fp.eof then some ⟨count, fp, state, texts⟩
      else
        match fgets size fp with
        | (none, fp) => some ⟨count, fp, state, texts⟩
        | (some line, fp) =>
            let lbuf := lbuf.write 0 (line ++ [0])
            let text := textAt lbuf 0 size
            match proc state text (count + 1) with
            | (state, false) => some ⟨count + 1, fp, state, texts ++ [text]⟩
            | (state, true) =>
                scanLoop proc size fuel lbuf fp (count + 1) state (texts ++ [text])

/-- `scan_file` of a stream that is not `NULL`; the buffer begins with what the stack
holds. -/
def scanFile (proc : Proc σ) (fuel : Nat) (stack : Memory UInt8) (fp : FileT) (size : Nat)
    (state : σ) : Option (Scan σ) :=
  let size := if size > 65536 then 65536 else size
  scanLoop proc size fuel stack fp 0 state []

/-! ## What the callback is served -/

/-- A piece as the string that the callback sees: up to its first NUL. -/
def textOf (piece : List UInt8) : CString where
  bytes := piece.takeWhile (· != 0)
  nonNul b member := by
    have other : (b != 0) = true := List.mem_takeWhile_imp (p := (· != 0)) member
    exact bne_iff_ne.mp other

/-- What comes of a callback that is given pieces until it refuses. -/
structure Served (σ : Type) where
  count : Nat
  state : σ
  texts : List CString
  left : List (List UInt8)

/-- The pieces one by one. -/
def serve (proc : Proc σ) : Nat → σ → List CString → List (List UInt8) → Served σ
  | count, state, texts, [] => ⟨count, state, texts, []⟩
  | count, state, texts, piece :: more =>
      match proc state (textOf piece) (count + 1) with
      | (state, false) => ⟨count + 1, state, texts ++ [textOf piece], more⟩
      | (state, true) => serve proc (count + 1) state (texts ++ [textOf piece]) more

/-- `fgets` takes the first piece. -/
theorem takeLine_leads {line rest : List UInt8} (leads : Leads 10 line rest) (n : Nat) :
    takeLine n (line ++ rest) = (line.take n, line.drop n ++ rest) := by
  induction line generalizing n with
  | nil => exact absurd rfl leads.nonempty
  | cons b line ih =>
      cases n with
      | zero => rfl
      | succ n =>
          rw [List.cons_append, takeLine]
          by_cases newline : b = 10
          · cases line with
            | nil =>
                rw [if_pos newline, List.take_succ_cons, List.take_nil, List.drop_succ_cons,
                  List.drop_nil, newline, List.nil_append]
            | cons c line => exact absurd (newline ▸ List.mem_cons_self) leads.inner
          · rw [if_neg newline]
            cases line with
            | nil =>
                have ended : rest = [] := leads.ended.resolve_left fun same =>
                  newline (Option.some.inj same)
                subst ended
                cases n with
                | zero => rfl
                | succ n => rfl
            | cons c line =>
                rw [ih (leads.drop (show 1 < (b :: c :: line).length by simp))]
                rfl

/-- One call of `fgets`: the first piece of what is left.  Only at the end of the stream it
meets the end. -/
theorem fgets_leads {line rest : List UInt8} (leads : Leads 10 line rest) {n : Nat}
    (positive : 0 < n) :
    ∃ eof, fgets (n + 1) ⟨line ++ rest, false⟩ = (some (line.take n), ⟨line.drop n ++ rest, eof⟩) ∧
      (eof = true → line.drop n ++ rest = []) := by
  have taken : line.take n ≠ [] := fun empty => by
    rcases List.take_eq_nil_iff.mp empty with zero | nothing
    · omega
    · exact leads.nonempty nothing
  unfold fgets
  rw [Nat.add_sub_cancel, takeLine_leads leads]
  dsimp only
  rw [if_neg fun both => taken both.1]
  refine ⟨_, rfl, fun met => ?_⟩
  rw [Bool.false_or] at met
  obtain ⟨short, open_⟩ := Bool.and_eq_true_iff.mp met
  have whole : line.length ≤ n := by
    have length := of_decide_eq_true short
    rw [List.length_take] at length
    omega
  rw [List.take_of_length_le whole] at open_
  rw [List.drop_of_length_le whole,
    leads.ended.resolve_left (bne_iff_ne.mp open_), List.append_nil]

/-- The callback finds the piece in the buffer. -/
theorem textAt_piece (lbuf : Memory UInt8) {piece : List UInt8} {size : Nat}
    (fits : piece.length < size) :
    textAt (lbuf.write 0 (piece ++ [0])) 0 size = textOf piece := by
  have reads := reads_write_bytes lbuf piece
  have short := (List.takeWhile_prefix (· != (0 : UInt8)) (l := piece)).length_le
  apply CString.ext
  rw [textAt_bytes (reads_zero_add.mpr reads)]
  exact List.take_of_length_le (show (piece.takeWhile (· != 0)).length ≤ max 1 size by omega)

/-- The loop serves the pieces of what is left of the stream. -/
theorem scanLoop_serves (proc : Proc σ) {n : Nat} (positive : 0 < n) {fuel : Nat}
    (lbuf : Memory UInt8) {fp : FileT} (ended : fp.eof = true → fp.rest = []) (count : Nat)
    (state : σ) (texts : List CString) (enough : fp.rest.length < fuel) :
    ∃ fp', scanLoop proc (n + 1) fuel lbuf fp count state texts =
        some ⟨(serve proc count state texts (pieces n 10 fp.rest)).count, fp',
          (serve proc count state texts (pieces n 10 fp.rest)).state,
          (serve proc count state texts (pieces n 10 fp.rest)).texts⟩ ∧
      (serve proc count state texts (pieces n 10 fp.rest)).left = pieces n 10 fp'.rest ∧
      (fp'.eof = true → fp'.rest = []) := by
  induction fuel generalizing lbuf fp count state texts with
  | zero => exact absurd enough (Nat.not_lt_zero _)
  | succ fuel ih =>
      obtain ⟨rest, eof⟩ := fp
      by_cases empty : rest = []
      · subst empty
        cases eof with
        | true => exact ⟨_, rfl, rfl, fun _ => rfl⟩
        | false =>
            refine ⟨⟨[], true⟩, ?_, rfl, fun _ => rfl⟩
            have null : fgets (n + 1) ⟨[], false⟩ = (none, ⟨[], true⟩) := by
              obtain ⟨m, rfl⟩ : ∃ m, n = m + 1 := ⟨n - 1, by omega⟩
              rfl
            rw [scanLoop, if_neg Bool.false_ne_true, null]
            rfl
      · have more : eof = false := Bool.eq_false_iff.mpr fun met => empty (ended met)
        subst more
        obtain ⟨line, behind, rfl, leads⟩ := exists_leads 10 empty
        obtain ⟨eof, got, met⟩ := fgets_leads leads positive
        have shorter : (line.drop n ++ behind).length < fuel := by
          have some_byte := List.length_pos_iff.mpr leads.nonempty
          rw [List.length_append] at enough ⊢
          rw [List.length_drop]
          omega
        have text := textAt_piece lbuf
          (show (line.take n).length < n + 1 from Nat.lt_succ_of_le (List.length_take_le _ _))
        rw [scanLoop, if_neg Bool.false_ne_true, got, pieces_cons leads positive, serve]
        dsimp only
        rw [text]
        cases proc state (textOf (line.take n)) (count + 1) with
        | mk state' accepted =>
            cases accepted with
            | false => exact ⟨_, rfl, rfl, met⟩
            | true => exact ih _ met _ _ _ shorter

/-- What has been served are the first pieces, and what is left the others. -/
theorem serve_split (proc : Proc σ) (count : Nat) (state : σ) (texts : List CString)
    (all : List (List UInt8)) :
    ∃ taken, all = taken ++ (serve proc count state texts all).left ∧
      (serve proc count state texts all).count = count + taken.length ∧
      (serve proc count state texts all).texts = texts ++ taken.map textOf := by
  induction all generalizing count state texts with
  | nil => exact ⟨[], rfl, rfl, (List.append_nil _).symm⟩
  | cons piece more ih =>
      rw [serve]
      cases proc state (textOf piece) (count + 1) with
      | mk state' accepted =>
          cases accepted with
          | false => exact ⟨[piece], rfl, rfl, rfl⟩
          | true =>
              obtain ⟨taken, split, counted, given⟩ := ih (count + 1) state' (texts ++ [textOf piece])
              refine ⟨piece :: taken, congrArg (piece :: ·) split, ?_, ?_⟩
              · exact counted.trans (by rw [List.length_cons]; omega)
              · exact given.trans (by rw [List.map_cons, List.append_assoc]; rfl)

/-- `scan_file` serves the pieces that fit into its buffer. -/
theorem scanFile_pieces (proc : Proc σ) (stack : Memory UInt8) {fp : FileT}
    (ended : fp.eof = true → fp.rest = []) {size : Nat} (two : 2 ≤ size) (state : σ) {fuel : Nat}
    (enough : fp.rest.length < fuel) {served : Served σ}
    (serving : serve proc 0 state [] (pieces (min size 65536 - 1) 10 fp.rest) = served) :
    ∃ fp', scanFile proc fuel stack fp size state =
        some ⟨served.count, fp', served.state, served.texts⟩ ∧
      served.left = pieces (min size 65536 - 1) 10 fp'.rest ∧ (fp'.eof = true → fp'.rest = []) := by
  have bounded : (if size > 65536 then 65536 else size) = min size 65536 - 1 + 1 := by
    split
    · omega
    · omega
  subst serving
  unfold scanFile
  rw [bounded]
  exact scanLoop_serves proc (by omega) stack ended 0 state [] enough

/-- With a buffer of at least two bytes `scan_file` ends, whatever the callback does.  It
serves the lines of what is left, cut to the buffer and numbered from 1, until the callback
refuses; another call goes on with the pieces that have not been served. -/
theorem scan_file_serves (proc : Proc σ) (stack : Memory UInt8) {fp : FileT}
    (ended : fp.eof = true → fp.rest = []) {size : Nat} (two : 2 ≤ size) (state : σ) {fuel : Nat}
    (enough : fp.rest.length < fuel) :
    let served := serve proc 0 state [] (pieces (min size 65536 - 1) 10 fp.rest)
    ∃ fp', scanFile proc fuel stack fp size state =
        some ⟨served.count, fp', served.state, served.texts⟩ ∧
      served.left = pieces (min size 65536 - 1) 10 fp'.rest ∧ fp'.rest = served.left.flatten ∧
      (fp'.eof = true → fp'.rest = []) := by
  obtain ⟨fp', ran, left, ended'⟩ := scanFile_pieces proc stack ended two state enough rfl
  exact ⟨fp', ran, left, by rw [left, flatten_pieces], ended'⟩

/-- Four bytes of buffer, and a callback that refuses the second text. -/
theorem scan_file_serves_second :
    ∃ fp', scanFile (fun (_ : Unit) _ count => ((), decide (count < 2))) 10 (fun _ => 0)
        ⟨[97, 98, 99, 100, 10, 101], false⟩ 4 () =
        some ⟨2, fp', (), [textOf [97, 98, 99], textOf [100, 10]]⟩ ∧ fp'.rest = [101] := by
  have cutting : pieces (min 4 65536 - 1) (10 : UInt8) [97, 98, 99, 100, 10, 101] =
      [[97, 98, 99], [100, 10], [101]] := by
    simp [pieces, lines, cut]
  have open_ : (⟨[97, 98, 99, 100, 10, 101], false⟩ : FileT).eof = true →
      (⟨[97, 98, 99, 100, 10, 101], false⟩ : FileT).rest = [] :=
    fun met => absurd met Bool.false_ne_true
  obtain ⟨fp', ran, -, rest, -⟩ := scan_file_serves
    (fun (_ : Unit) _ count => ((), decide (count < 2))) (fun _ => 0) open_
    (show 2 ≤ 4 by decide) () (show _ < 10 by decide)
  rw [cutting] at ran rest
  exact ⟨fp', ran, rest⟩

end CprFormal.System.ScanFile
