import CprFormal.Library.Joined
import CprFormal.Socket.Peers

/-!
# Lines between two peers on a socket

Where lines of printable characters are sent to a side, each with a newline behind it, and
its calls of `cpr_getline` have room for them, a call returns exactly the next line: it
cannot return before the newline, and cannot go on behind it.
-/

namespace CprFormal.Socket.PeerLines

open CprFormal.Library.Joined CprFormal.Library.FlatMemory CprFormal.Library.Transition
open CprFormal.Socket.Editing CprFormal.Socket.Model CprFormal.Socket.Peers
open CprFormal.Strchar.Strlen

def Plain (text : List UInt8) : Prop := ∀ b ∈ text, 32 ≤ b ∧ b ≤ 126

theorem Plain.newline {text : List UInt8} (plain : Plain text) : 10 ∉ text :=
  fun member => absurd (plain 10 member).1 (by decide)

/-- Characters only are the line itself. -/
theorem edited_plain {text : List UInt8} (plain : Plain text) : edited text = text := by
  induction text using List.reverseRecOn with
  | nil => rfl
  | append_singleton text b ih =>
      rw [edited_append, ih fun c member => plain c (List.mem_append_left _ member)]
      exact edit_character (plain b (List.mem_append_right _ (List.mem_singleton_self b))) text

/-- Bytes without a newline that begin a text with one are from its first line. -/
theorem front_of_line {front more line rest : List UInt8} (within : 10 ∉ front)
    (same : front ++ more = line ++ 10 :: rest) : front <+: line := by
  rcases List.append_eq_append_iff.mp same with ⟨tail, whole, -⟩ | ⟨tail, whole, cut⟩
  · exact ⟨tail, whole.symm⟩
  · cases tail with
    | nil =>
        rw [List.append_nil] at whole
        exact whole ▸ List.prefix_refl _
    | cons b tail =>
        obtain ⟨rfl, -⟩ := List.cons.inj cut
        exact absurd (whole ▸ List.mem_append_right _ List.mem_cons_self) within

/-- Where the first newline stands is where the line ends. -/
theorem line_unique {front more line rest : List UInt8} (within : 10 ∉ front) (inside : 10 ∉ line)
    (same : front ++ 10 :: more = line ++ 10 :: rest) : front = line ∧ more = rest := by
  obtain ⟨tail, whole⟩ := front_of_line within same
  obtain ⟨tail', whole'⟩ := front_of_line inside same.symm
  have equal : front = line :=
    List.IsPrefix.eq_of_length ⟨tail, whole⟩ (Nat.le_antisymm
      (List.IsPrefix.length_le ⟨tail, whole⟩) (List.IsPrefix.length_le ⟨tail', whole'⟩))
  refine ⟨equal, ?_⟩
  rw [equal] at same
  exact (List.cons.inj (List.append_cancel_left same)).2

/-- Inside a line that there is room for no byte ends it. -/
theorem not_ended {limit : Nat} {before line : List UInt8} {b : UInt8} (plain : Plain line)
    (room : line.length + 1 < limit) (front : before ++ [b] <+: line) :
    ¬ EndsLine limit before b := by
  have printable : Plain (before ++ [b]) := fun c member => plain c (front.subset member)
  have here := printable b (List.mem_append_right _ (List.mem_singleton_self b))
  rintro (newline | ⟨carriage, -⟩ | ⟨-, full⟩)
  · exact absurd (newline ▸ here.1) (by decide)
  · exact absurd (carriage ▸ here.1) (by decide)
  · rw [edited_plain printable] at full
    have short := front.length_le
    omega

/-- What a call has returned: the line and its length. -/
def Returns (r : Reading) (line : List UInt8) : Prop :=
  Reads r.line.text line ∧ r.line.result = some (line.length : Int)

/-- A call that has returned without failing has received the first line with its
newline. -/
theorem told_line {r : Reading} (told : Told r) (returned : r.line.result.isSome)
    (succeeded : ∀ v ∈ r.line.result, 0 ≤ v) {lines : List (List UInt8)} {part more : List UInt8}
    (plain : ∀ text ∈ part :: lines, Plain text)
    (room : ∀ text ∈ part :: lines, text.length + 1 < r.limit)
    (same : r.received ++ more = terminated 10 lines ++ part) :
    ∃ line rest, lines = line :: rest ∧ Returns r line ∧ more = terminated 10 rest ++ part := by
  cases told with
  | small small _ _ => exact absurd (room part List.mem_cons_self) (by omega)
  | waiting line _ => exact absurd returned (by rw [line.waiting]; decide)
  | @ended v text result ended within =>
      have up := succeeded v result
      obtain ⟨before, b, split, last⟩ := ended.last up
      rw [split] at same within
      rw [List.dropLast_concat] at within
      have outside {line : List UInt8} (member : line ∈ part :: lines) :
          ¬ before ++ [b] <+: line :=
        fun front => not_ended (plain line member) (room line member) front last
      cases lines with
      | nil => exact absurd ⟨more, same⟩ (outside List.mem_cons_self)
      | cons line rest =>
          have member : line ∈ part :: line :: rest := List.mem_cons_of_mem _ List.mem_cons_self
          have first : terminated 10 (line :: rest) ++ part =
              line ++ 10 :: (terminated 10 rest ++ part) := by
            rw [terminated_cons, List.append_assoc, List.cons_append]
          rw [first] at same
          have newline : b = 10 := by
            by_contra other
            refine outside member (front_of_line (fun inside => ?_) same)
            rcases List.mem_append.mp inside with early | here
            · exact within early
            · exact other (List.mem_singleton.mp here).symm
          subst newline
          rw [← List.append_cons] at same
          obtain ⟨rfl, rfl⟩ := line_unique within (plain line member).newline same
          have typed : text = before := by
            rw [ended.stack up, split, edited_append, edited_plain (plain before member)]
            exact edit_other (by decide) (by decide) before
          refine ⟨before, rest, rfl, ⟨typed ▸ ended.reads, ?_⟩, rfl⟩
          rw [result, ended.value up, typed]

/-- Calls one after the other return lines one after the other. -/
theorem told_lines {calls : List Reading} (told : ∀ r ∈ calls, Told r)
    (returned : ∀ r ∈ calls, r.line.result.isSome)
    (succeeded : ∀ r ∈ calls, ∀ v ∈ r.line.result, 0 ≤ v) {lines : List (List UInt8)}
    {part more : List UInt8} (plain : ∀ text ∈ part :: lines, Plain text)
    (room : ∀ r ∈ calls, ∀ text ∈ part :: lines, text.length + 1 < r.limit)
    (same : calls.flatMap Reading.received ++ more = terminated 10 lines ++ part) :
    ∃ got rest, lines = got ++ rest ∧ List.Forall₂ Returns calls got ∧
      more = terminated 10 rest ++ part := by
  induction calls generalizing lines with
  | nil => exact ⟨[], lines, rfl, .nil, same⟩
  | cons r calls ih =>
      rw [List.flatMap_cons, List.append_assoc] at same
      obtain ⟨line, rest, rfl, returns, later⟩ := told_line (told r List.mem_cons_self)
        (returned r List.mem_cons_self) (succeeded r List.mem_cons_self) plain
        (room r List.mem_cons_self) same
      have fewer : ∀ text ∈ part :: rest, text ∈ part :: line :: rest := by
        intro text member
        rcases List.mem_cons.mp member with rfl | inside
        · exact List.mem_cons_self
        · exact List.mem_cons_of_mem _ (List.mem_cons_of_mem _ inside)
      obtain ⟨got, left, rfl, all, more_⟩ :=
        ih (fun c member => told c (List.mem_cons_of_mem r member))
          (fun c member => returned c (List.mem_cons_of_mem r member))
          (fun c member => succeeded c (List.mem_cons_of_mem r member))
          (fun text member => plain text (fewer text member))
          (fun c member text inside => room c (List.mem_cons_of_mem r member) text
            (fewer text inside)) later
      exact ⟨line :: got, left, rfl, .cons returns all, more_⟩

/-- Where what is sent to a side are lines, its calls return them. -/
theorem sent_lines {s : Net} (inv : Inv s) (side : Bool) {lines : List (List UInt8)}
    {part : List UInt8} (sent : s.sent side = terminated 10 lines ++ part)
    (plain : ∀ text ∈ part :: lines, Plain text)
    (room : ∀ r ∈ (s.peer side).returned, ∀ text ∈ part :: lines, text.length + 1 < r.limit)
    (succeeded : ∀ r ∈ (s.peer side).returned, ∀ v ∈ r.line.result, 0 ≤ v) :
    ∃ got rest, lines = got ++ rest ∧ List.Forall₂ Returns (s.peer side).returned got ∧
      (s.peer side).reading.toList.flatMap Reading.received ++ s.wire side =
        terminated 10 rest ++ part := by
  have whole := inv.split side
  unfold Peer.calls at whole
  rw [sent, List.flatMap_append, List.append_assoc] at whole
  exact told_lines (fun r member => inv.told side r (List.mem_append_left _ member))
    (inv.returned side) succeeded plain room whole.symm

/-! ## One side puts, the other reads -/

/-- The side of an event, and whether it puts. -/
def OneWay (reader : Bool) (_ : Net) : Event → Prop
  | .putline side _ _ _ => side = !reader
  | .putch side _ _ => side = !reader
  | .call side _ _ _ => side = reader
  | .recv side _ => side = reader
  | .done side => side = reader

/-- The bytes that an event puts. -/
def bytesPut : Event → List UInt8
  | .putline _ text limit took => (cprPutline text limit).take took
  | .putch _ code took => (cprPutch code).take took
  | _ => []

/-- An event that puts. -/
def isPut : Event → Bool
  | .putline _ _ _ _ => true
  | .putch _ _ _ => true
  | _ => false

theorem bytesPut_filter (trace : List Event) :
    (trace.filter isPut).flatMap bytesPut = trace.flatMap bytesPut := by
  induction trace with
  | nil => rfl
  | cons e trace ih =>
      cases puts : isPut e with
      | true =>
          rw [List.filter_cons_of_pos puts, List.flatMap_cons, List.flatMap_cons, ih]
      | false =>
          have nothing : bytesPut e = [] := by
            cases e with
            | putline side text limit took => cases puts
            | putch side code took => cases puts
            | call side text limit echo => rfl
            | recv side answer => rfl
            | done side => rfl
          rw [List.filter_cons_of_neg (by rw [puts]; decide), List.flatMap_cons, nothing, ih]
          rfl

theorem step_sent {reader : Bool} {s s' : Net} {e : Event} (step : Step s e s')
    (oneWay : OneWay reader s e) : s'.sent reader = s.sent reader ++ bytesPut e := by
  have apart : reader ≠ !reader := by cases reader <;> decide
  cases step with
  | putline side text limit took =>
      subst oneWay
      unfold Net.send
      rw [Bool.not_not]
      simp only [Function.update_self]
      rfl
  | putch side code took =>
      subst oneWay
      unfold Net.send
      rw [Bool.not_not]
      simp only [Function.update_self]
      rfl
  | call idle text limit echo => exact (List.append_nil _).symm
  | recv reading waiting front =>
      subst oneWay
      unfold Net.send
      simp only [Function.update_of_ne apart]
      exact (List.append_nil _).symm
  | lost reading waiting =>
      subst oneWay
      unfold Net.send
      simp only [Function.update_of_ne apart]
      exact (List.append_nil _).symm
  | done reading returned => exact (List.append_nil _).symm

theorem run_sent {reader : Bool} {trace : List Event} {s : Net}
    (run : Run (system.restrict (OneWay reader)) trace s) :
    s.sent reader = trace.flatMap bytesPut := by
  refine run.invariant (fun trace s => s.sent reader = trace.flatMap bytesPut) (fun s init => ?_)
    fun trace s e s' same step => ?_
  · rw [init.2.2.1]
    rfl
  · rw [step_sent step.1 step.2, same, List.flatMap_append, List.flatMap_singleton]

/-- A text is put with `cpr_putline`, and a newline behind it. -/
def putText (side : Bool) (limit : Nat) (text : CString) : List Event :=
  [.putline side text limit 256, .putch side 10 1]

theorem bytesPut_line {text : CString} (short : text.length ≤ 256) {limit : Nat}
    (limited : limit ≠ 0) (side : Bool) :
    bytesPut (.putline side text limit 256) = text.bytes := by
  have size : cprStrlen text.char 256 = text.length := by
    rw [cprStrlen_char]
    exact Nat.min_eq_left short
  change (cprPutline text limit).take 256 = _
  rw [cprPutline_take, if_pos limited, size, List.take_of_length_le (Nat.le_refl text.length),
    List.take_of_length_le short]

/-- What has been put so far are the first texts as lines, and the next one perhaps without
its newline. -/
theorem putTexts_bytes {side : Bool} {limit : Nat} (limited : limit ≠ 0) {texts : List CString}
    (short : ∀ text ∈ texts, text.length ≤ 256) {puts : List Event}
    (front : puts <+: texts.flatMap (putText side limit)) :
    ∃ (lines later : List CString) (part : List UInt8), texts = lines ++ later ∧
      puts.flatMap bytesPut = terminated 10 (lines.map CString.bytes) ++ part ∧
      (part = [] ∨ ∃ text more, later = text :: more ∧ part = text.bytes) := by
  induction texts generalizing puts with
  | nil =>
      rw [List.flatMap_nil] at front
      rw [List.prefix_nil.mp front]
      exact ⟨[], [], [], rfl, rfl, .inl rfl⟩
  | cons text texts ih =>
      have line := bytesPut_line (short text List.mem_cons_self) limited side
      rw [List.flatMap_cons] at front
      cases puts with
      | nil => exact ⟨[], _, [], rfl, rfl, .inl rfl⟩
      | cons e puts =>
          obtain ⟨first, behind⟩ := List.cons_prefix_cons.mp front
          subst first
          clear front
          cases puts with
          | nil =>
              refine ⟨[], _, text.bytes, rfl, ?_, .inr ⟨text, texts, rfl, rfl⟩⟩
              rw [List.flatMap_singleton, line]
              rfl
          | cons e puts =>
              obtain ⟨second, later⟩ := List.cons_prefix_cons.mp behind
              subst second
              obtain ⟨lines, rest, part, split, bytes, open_⟩ :=
                ih (fun t member => short t (List.mem_cons_of_mem text member)) later
              refine ⟨text :: lines, rest, part, congrArg (text :: ·) split, ?_, open_⟩
              rw [List.flatMap_cons, List.flatMap_cons, line, bytes, List.map_cons,
                terminated_cons, List.append_assoc]
              rfl

/-- In every run in which one side puts texts of at most 256 printable characters with
`cpr_putline` (given a limit) and `cpr_putch('\n')`, and the other only calls `cpr_getline`
with room for them, the calls that have returned, none of which has failed, have returned
the texts in order, one each; what the current call has received and what is on the way
begins the remaining ones. -/
theorem putline_getline {reader : Bool} {trace : List Event} {s : Net}
    (run : Run (system.restrict (OneWay reader)) trace s) {texts : List CString} {limit : Nat}
    (limited : limit ≠ 0)
    (program : trace.filter isPut <+: texts.flatMap (putText (!reader) limit))
    (short : ∀ text ∈ texts, text.length ≤ 256) (plain : ∀ text ∈ texts, Plain text.bytes)
    (room : ∀ r ∈ (s.peer reader).returned,
      2 ≤ r.limit ∧ ∀ text ∈ texts, text.length + 1 < r.limit)
    (succeeded : ∀ r ∈ (s.peer reader).returned, ∀ v ∈ r.line.result, 0 ≤ v) :
    ∃ got rest, texts = got ++ rest ∧
      List.Forall₂ (fun r text => Returns r text.bytes) (s.peer reader).returned got ∧
      (s.peer reader).reading.toList.flatMap Reading.received ++ s.wire reader <+:
        terminated 10 (rest.map CString.bytes) := by
  obtain ⟨lines, later, part, split, bytes, open_⟩ := putTexts_bytes limited short program
  rw [bytesPut_filter, ← run_sent run] at bytes
  -- The lines and the open part come from the texts.
  have from_texts : ∀ line ∈ part :: lines.map CString.bytes,
      line = [] ∨ ∃ text ∈ texts, line = text.bytes := by
    intro line member
    rcases List.mem_cons.mp member with rfl | inside
    · refine open_.imp_right fun ⟨text, more, next, same⟩ => ⟨text, ?_, same⟩
      rw [split, next]
      exact List.mem_append_right _ List.mem_cons_self
    · obtain ⟨text, put, rfl⟩ := List.mem_map.mp inside
      exact .inr ⟨text, split ▸ List.mem_append_left _ put, rfl⟩
  have plain_lines : ∀ line ∈ part :: lines.map CString.bytes, Plain line := by
    intro line member
    rcases from_texts line member with rfl | ⟨text, inside, rfl⟩
    · exact fun b none => absurd none List.not_mem_nil
    · exact plain text inside
  have room_lines : ∀ r ∈ (s.peer reader).returned,
      ∀ line ∈ part :: lines.map CString.bytes, line.length + 1 < r.limit := by
    intro r returned line member
    rcases from_texts line member with rfl | ⟨text, inside, rfl⟩
    · exact (room r returned).1
    · exact (room r returned).2 text inside
  obtain ⟨got, rest, cut, all, left⟩ :=
    sent_lines (run_inv run.relax) reader bytes plain_lines room_lines succeeded
  obtain ⟨front, back, rfl, rfl, rfl⟩ := List.map_eq_append_iff.mp cut
  refine ⟨front, back ++ later, by rw [split, List.append_assoc],
    List.forall₂_map_right_iff.mp all, ?_⟩
  rw [left, List.map_append, terminated_append]
  refine (List.prefix_append_right_inj _).mpr ?_
  rcases open_ with rfl | ⟨text, more, rfl, rfl⟩
  · exact List.nil_prefix
  · rw [List.map_cons, terminated_cons]
    exact List.prefix_append _ _

/-- `"a "` -/
def firstText : CString := ⟨[97, 32], by simp⟩

/-- `"b"` -/
def secondText : CString := ⟨[98], by simp⟩

/-- The second text is put while the first one is being read; the first call returns the
first text, and the second call has received the second one without its newline. -/
theorem putline_getline_two :
    ∃ (trace : List Event) (s : Net), Run (system.restrict (OneWay true)) trace s ∧
      (s.peer true).returned.length = 1 ∧ s.wire true = [10] ∧
      ∃ got rest, [firstText, secondText] = got ++ rest ∧
        List.Forall₂ (fun r text => Returns r text.bytes) (s.peer true).returned got ∧
        (s.peer true).reading.toList.flatMap Reading.received ++ s.wire true <+:
          terminated 10 (rest.map CString.bytes) := by
  have start : Run (system.restrict (OneWay true)) []
      ⟨fun _ => ⟨none, []⟩, fun _ => [], fun _ => [], fun _ => []⟩ := .start ⟨rfl, rfl, rfl, rfl⟩
  have put := start.next ⟨.putline false firstText 80 256, rfl⟩
  have ended := put.next ⟨.putch false 10 1, rfl⟩
  have called := ended.next ⟨@Step.call _ true rfl (fun _ => 0) 80 false, rfl⟩
  have typed := called.next ⟨@Step.recv _ true _ 97 [32, 10] rfl rfl rfl, rfl⟩
  have later := typed.next ⟨.putline false secondText 80 256, rfl⟩
  have both := later.next ⟨.putch false 10 1, rfl⟩
  have blank := both.next ⟨@Step.recv _ true _ 32 [10, 98, 10] rfl rfl rfl, rfl⟩
  have got := blank.next ⟨@Step.recv _ true _ 10 [98, 10] rfl rfl rfl, rfl⟩
  have done := got.next ⟨@Step.done _ true _ rfl rfl, rfl⟩
  have again := done.next ⟨@Step.call _ true rfl (fun _ => 0) 80 false, rfl⟩
  have open_ := again.next ⟨@Step.recv _ true _ 98 [10] rfl rfl rfl, rfl⟩
  refine ⟨_, _, open_, rfl, rfl, putline_getline open_ (show 80 ≠ 0 by decide) ?_ ?_ ?_ ?_ ?_⟩
  · exact List.prefix_refl _
  · decide
  · intro text member
    rcases List.mem_cons.mp member with rfl | last
    · exact List.forall_mem_cons.mpr ⟨by decide, List.forall_mem_singleton.mpr (by decide)⟩
    · rw [List.mem_singleton.mp last]
      exact List.forall_mem_singleton.mpr (by decide)
  · intro r member
    rw [List.mem_singleton.mp member]
    exact ⟨by decide, by decide⟩
  · intro r member v value
    rw [List.mem_singleton.mp member] at value
    rw [← Option.some.inj value]
    decide

end CprFormal.Socket.PeerLines
