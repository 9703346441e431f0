import CprFormal.Library.Transition
import CprFormal.System.Getline
import CprFormal.System.ScanFile

/-!
# Reading one stream with `scan_file` and `getline`

A program may read a stream partly with `scan_file`, whose callback stops where it likes,
and partly with `getline`.  Where the buffers of `scan_file` hold every line the two agree
on what a line is, so together they hand out the lines of the stream one by one.
-/

namespace CprFormal.System.LineReading

open CprFormal.Library.Lines CprFormal.Library.FlatMemory CprFormal.Library.Lists
open CprFormal.Library.Transition
open CprFormal.System.Getline CprFormal.System.ScanFile

inductive Event where
  | scan (size : Nat)
  | line

/-- The stream, `*lp` and `*size`, and the texts that have been handed out. -/
structure Session where
  fp : FileT
  lp : Option Block
  size : Nat
  handed : List (List UInt8)

/-- The bytes that `getline` returns, unless it returns -1. -/
def returned (outcome : Outcome) : Option (List UInt8) :=
  if outcome.result < 0 then none
  else outcome.lp.map fun lp => lp.mem.slice 0 outcome.result.toNat

/-- The next line fits into the buffer of `scan_file`, and so do all others. -/
def Fits (size : Nat) (rest : List UInt8) : Prop :=
  2 ≤ size ∧ ∀ line ∈ lines 10 rest, line.length < min size 65536

inductive Step : Session → Event → Session → Prop where
  /-- A scan with any callback. -/
  | scan {s : Session} {σ : Type} {proc : Proc σ} {fuel : Nat} {stack : Memory UInt8}
      {size : Nat} {state : σ} {outcome : Scan σ} (fits : Fits size s.fp.rest)
      (ran : scanFile proc fuel stack s.fp size state = some outcome)
      (enough : s.fp.rest.length < fuel) :
      Step s (.scan size)
        { s with
          fp := outcome.fp
          handed := s.handed ++ outcome.texts.map fun text => text.bytes }
  /-- `getline`, with the allocations it asks for.  `getc` has met the end of the stream
  when there is no line or its last byte is no newline. -/
  | line {s : Session} {alloc : Allocator} {outcome : Outcome}
      (succeeding : Succeeding alloc (lineOf s.fp.rest).length)
      (ran : getline alloc s.lp s.size s.fp.rest = some outcome) :
      Step s .line
        { fp := ⟨outcome.rest,
            s.fp.eof || (returned outcome).all fun line => line.getLast? != some 10⟩
          lp := outcome.lp
          size := outcome.size
          handed := s.handed ++ (returned outcome).toList }

/-- A stream at its start, and for `getline` no block or one of the size it is told. -/
def system (file : List UInt8) : System Session Event where
  init s := s.fp = ⟨file, false⟩ ∧ (∀ block ∈ s.lp, s.size = block.size) ∧ s.handed = []
  step := Step

/-- What has been handed out are the first lines, and the stream is at the next one. -/
structure Inv (file : List UInt8) (s : Session) : Prop where
  lines : lines 10 file = s.handed ++ lines 10 s.fp.rest
  ended : s.fp.eof = true → s.fp.rest = []
  held : ∀ block ∈ s.lp, s.size = block.size

/-- Lines of a file without NUL are the strings that a callback sees. -/
theorem textOf_line {rest piece : List UInt8} (clean : 0 ∉ rest) (member : piece ∈ lines 10 rest) :
    (textOf piece).bytes = piece := by
  refine takeWhile_of_not_mem fun inside => clean ?_
  rw [← flatten_lines 10 rest]
  exact List.mem_flatten.mpr ⟨piece, member, inside⟩

/-- A scan hands out the next lines. -/
theorem scan_hands {σ : Type} {proc : Proc σ} {fuel : Nat} {stack : Memory UInt8} {size : Nat}
    {state : σ} {fp : FileT} {outcome : Scan σ} (clean : 0 ∉ fp.rest)
    (ended : fp.eof = true → fp.rest = []) (fits : Fits size fp.rest)
    (enough : fp.rest.length < fuel)
    (ran : scanFile proc fuel stack fp size state = some outcome) :
    lines 10 fp.rest =
        outcome.texts.map (fun text => text.bytes) ++ lines 10 outcome.fp.rest ∧
      (outcome.fp.eof = true → outcome.fp.rest = []) := by
  obtain ⟨two, short⟩ := fits
  have whole {rest : List UInt8} (shorter : ∀ line ∈ lines 10 rest, line ∈ lines 10 fp.rest) :
      pieces (min size 65536 - 1) 10 rest = lines 10 rest :=
    pieces_whole fun line member => Nat.le_sub_one_of_lt (short line (shorter line member))
  obtain ⟨fp', ran', left, ended'⟩ := scanFile_pieces proc stack ended two state enough rfl
  obtain ⟨taken, split, -, texts⟩ :=
    serve_split proc 0 state [] (pieces (min size 65536 - 1) 10 fp.rest)
  rw [whole fun _ member => member] at ran' left split texts
  generalize serve proc 0 state [] (lines 10 fp.rest) = served at ran' left split texts
  cases ran.symm.trans ran'
  have remaining : lines 10 fp'.rest = served.left := by
    have rest : served.left.flatten = fp'.rest := by rw [left, flatten_pieces]
    rw [← rest]
    exact lines_behind split
  have given : served.texts.map (fun text => text.bytes) = taken := by
    rw [texts, List.nil_append, List.map_map]
    refine (List.map_congr_left fun piece member => ?_).trans (List.map_id taken)
    exact textOf_line clean (split ▸ List.mem_append_left _ member)
  exact ⟨by rw [given, remaining]; exact split, ended'⟩

/-- `getline` leaves the rest of the stream, and returns the first line. -/
theorem lineOf_leads {stream : List UInt8} (some_ : stream ≠ []) :
    Leads 10 (lineOf stream) (behindLine stream) := by
  induction stream with
  | nil => exact absurd rfl some_
  | cons c rest ih =>
      by_cases newline : c = 10
      · rw [newline, (line_newline rest).1, (line_newline rest).2]
        exact ⟨List.cons_ne_nil _ _, List.not_mem_nil, .inl rfl⟩
      · rw [(line_cons newline rest).1, (line_cons newline rest).2]
        by_cases empty : rest = []
        · subst empty
          exact ⟨List.cons_ne_nil _ _, List.not_mem_nil, .inr rfl⟩
        · obtain ⟨nonempty, inner, ended⟩ := ih empty
          obtain ⟨b, line, split⟩ := List.exists_cons_of_ne_nil nonempty
          rw [split] at inner ended ⊢
          refine ⟨List.cons_ne_nil _ _, fun inside => ?_, ?_⟩
          · rcases List.mem_cons.mp inside with same | later
            · exact newline same.symm
            · exact inner later
          · rwa [List.getLast?_cons_cons]

/-- `getline` hands out the next line, if there is one. -/
theorem line_hands {alloc : Allocator} {lp : Option Block} {size : Nat} {stream : List UInt8}
    {outcome : Outcome} (held : ∀ block ∈ lp, size = block.size)
    (succeeding : Succeeding alloc (lineOf stream).length)
    (ran : getline alloc lp size stream = some outcome) :
    lines 10 stream = (returned outcome).toList ++ lines 10 outcome.rest ∧
      ((returned outcome).all (fun line => line.getLast? != some 10) = true →
        outcome.rest = []) ∧
      ∀ block ∈ outcome.lp, outcome.size = block.size := by
  cases stream with
  | nil =>
      cases ran
      exact ⟨rfl, fun _ => rfl, held⟩
  | cons c rest =>
      have leads := lineOf_leads (List.cons_ne_nil c rest)
      have whole := lineOf_append_behindLine (c :: rest)
      obtain ⟨outcome', ran', result, behind, block, stored, held', -, bytes, -⟩ :=
        getline_returned held succeeding
      cases ran.symm.trans ran'
      have line : returned outcome = some (lineOf (c :: rest)) := by
        unfold returned
        rw [result, if_neg (by omega), stored, Option.map_some, Int.toNat_natCast, bytes]
      refine ⟨?_, fun open_ => ?_, ?_⟩
      · rw [line, behind, Option.toList_some, List.singleton_append, ← lines_leads leads, whole]
      · rw [line, Option.all_some] at open_
        rw [behind]
        exact leads.ended.resolve_left (bne_iff_ne.mp open_)
      · rw [stored, held']
        exact fun other same => congrArg Block.size (Option.some.inj same)

/-! ## Every run -/

theorem Inv.file {file : List UInt8} {s : Session} (inv : Inv file s) :
    s.handed.flatten ++ s.fp.rest = file := by
  have whole := congrArg List.flatten inv.lines
  rw [List.flatten_append, flatten_lines, flatten_lines] at whole
  exact whole.symm

theorem step_inv {file : List UInt8} (clean : 0 ∉ file) {s s' : Session} {e : Event}
    (inv : Inv file s) (step : Step s e s') : Inv file s' := by
  have rest_clean : 0 ∉ s.fp.rest := fun inside =>
    clean (inv.file ▸ List.mem_append_right _ inside)
  cases step with
  | scan fits ran enough =>
      obtain ⟨next, ended⟩ := scan_hands rest_clean inv.ended fits enough ran
      refine ⟨?_, ended, inv.held⟩
      rw [inv.lines, next, List.append_assoc]
  | line succeeding ran =>
      obtain ⟨next, ended, held⟩ := line_hands inv.held succeeding ran
      refine ⟨?_, fun met => ?_, held⟩
      · rw [inv.lines, next, List.append_assoc]
      · rcases Bool.or_eq_true_iff.mp met with before | here
        · have nothing := inv.ended before
          rw [nothing] at ran
          cases ran
          rfl
        · exact ended here

theorem run_inv {file : List UInt8} (clean : 0 ∉ file) {trace : List Event} {s : Session}
    (run : Run (system file) trace s) : Inv file s := by
  refine run.invariant (fun _ s => Inv file s) (fun s init => ?_)
    fun _ _ _ _ inv step => step_inv clean inv step
  obtain ⟨fp, held, handed⟩ := init
  refine ⟨?_, fun met => ?_, held⟩
  · rw [fp, handed]
    rfl
  · rw [fp] at met
    cases met

/-- In every run of scans, with any callbacks and buffers that hold every line, and of
`getline`, what has been handed out are the first lines of the file, each once and in
order, and the stream is at the next line; when the stream says so, or `getline` returns
-1, these are all its lines. -/
theorem stream_lines {file : List UInt8} (clean : 0 ∉ file) {trace : List Event} {s : Session}
    (run : Run (system file) trace s) :
    lines 10 file = s.handed ++ lines 10 s.fp.rest ∧ s.handed.flatten ++ s.fp.rest = file ∧
      (s.fp.eof = true → s.handed = lines 10 file) ∧
      ∀ {alloc : Allocator} {outcome : Outcome},
        Succeeding alloc (lineOf s.fp.rest).length →
        getline alloc s.lp s.size s.fp.rest = some outcome →
        (outcome.result = -1 ↔ s.handed = lines 10 file) := by
  have inv := run_inv clean run
  have all {rest : List UInt8} (left : s.fp.rest = rest) :
      s.handed = lines 10 file ↔ lines 10 rest = [] := by
    rw [inv.lines, left]
    exact List.self_eq_append_right
  refine ⟨inv.lines, inv.file, fun met => (all (inv.ended met)).mpr rfl,
    fun {alloc outcome} succeeding ran => ?_⟩
  cases stream : s.fp.rest with
  | nil =>
      rw [stream] at ran
      cases ran
      exact iff_of_true rfl ((all stream).mpr rfl)
  | cons c rest =>
      rw [stream] at ran succeeding
      obtain ⟨outcome', ran', result, -⟩ := getline_returned inv.held succeeding
      cases ran.symm.trans ran'
      have more : lines 10 (c :: rest) ≠ [] := by
        intro none_
        have whole := flatten_lines 10 (c :: rest)
        rw [none_] at whole
        cases whole
      exact iff_of_false (by omega) (mt (all stream).mp more)

/-- A scan whose callback refuses the first line, and `getline` behind it. -/
theorem stream_lines_two :
    ∃ (trace : List Event) (s : Session), Run (system [97, 10, 98, 10]) trace s ∧
      s.handed = [[97, 10], [98, 10]] ∧
      lines 10 [97, 10, 98, 10] = s.handed ++ lines 10 s.fp.rest := by
  have start : Run (system [97, 10, 98, 10]) [] ⟨⟨[97, 10, 98, 10], false⟩, none, 0, []⟩ :=
    .start ⟨rfl, fun _ none => (Option.not_mem_none _ none).elim, rfl⟩
  have fits : Fits 8 [97, 10, 98, 10] := ⟨by decide, by decide⟩
  have scanned := start.next (@Step.scan _ Unit (fun _ _ _ => ((), false)) 5 (fun _ => 0) 8 ()
    ⟨1, ⟨[98, 10], false⟩, (), [textOf [97, 10]]⟩ fits rfl (by decide))
  have succeeding : Succeeding (fun _ => some fun _ => 0) 2 := by
    intro n asked
    have small : n < 2 ^ 63 := by omega
    unfold malloc
    rw [dif_pos small]
    rfl
  obtain ⟨outcome, ran, result, rest, block, stored, -, -, bytes, -⟩ :=
    @getline_returned (fun _ => some fun _ => 0) none 0 98 [10]
      (fun _ none => (Option.not_mem_none _ none).elim) succeeding
  have got := scanned.next (@Step.line _ (fun _ => some fun _ => 0) outcome succeeding ran)
  have second : returned outcome = some [98, 10] := by
    unfold returned
    rw [result, stored]
    exact congrArg some bytes
  refine ⟨_, _, got, ?_, (stream_lines (by decide) got).1⟩
  rw [second]
  rfl

end CprFormal.System.LineReading
