import CprFormal.Library.CellRow
import CprFormal.Socket.Codes

/-!
# The echo on a terminal

The remote terminal shows what `cpr_getline` has sent.  Characters are echoed as they
come; of the erase sequence only the first backspace is sent, so the cursor moves back
over a character that stays on the row.
-/

namespace CprFormal.Socket.Echo

open CprFormal.Library.CellRow CprFormal.Library.FlatMemory CprFormal.Library.Transition
open CprFormal.Socket.Codes CprFormal.Socket.Editing CprFormal.Socket.Model

/-- A row of cells and a cursor; the cells behind the row are blank. -/
structure Terminal where
  row : List UInt8
  cursor : Nat

/-- A character overwrites the cell at the cursor, a backspace moves the cursor left. -/
def Terminal.receive (t : Terminal) (b : UInt8) : Terminal :=
  if 32 ≤ b ∧ b ≤ 126 then ⟨put 32 t.row t.cursor b, t.cursor + 1⟩
  else if b = 8 then { t with cursor := t.cursor - 1 }
  else t

/-- What the terminal shows of the bytes that have been sent. -/
def screen (s : Getline) : Terminal := s.sent.foldl Terminal.receive ⟨[], 0⟩

/-- The text up to the position. -/
def lineOf (s : Getline) : List UInt8 := s.text.slice 0 s.pos

/-- While the line is open, the cursor is at its position and the row looks like it. -/
def Mirrors (s : Getline) : Prop :=
  s.result = none →
    (screen s).cursor = s.pos ∧ visible 32 (screen s).row = visible 32 (lineOf s)

/-- A character that is erased from an open line is a space. -/
def ErasesSpaces (s : Getline) (b : UInt8) : Prop :=
  s.result = none → b = 8 ∨ b = 127 → 0 < s.pos → s.text (s.pos - 1) = 32

theorem slice_getD (m : Memory UInt8) (n i : Nat) :
    (m.slice 0 n).getD i 32 = if i < n then m i else 32 := by
  by_cases inside : i < n
  · have here : i < (m.slice 0 n).length := by
      rw [Memory.slice_length]
      exact inside
    rw [if_pos inside, List.getD_eq_getElem _ _ here, Memory.getElem_slice, Nat.zero_add]
  · rw [if_neg inside]
    refine List.getD_eq_default _ _ ?_
    rw [Memory.slice_length]
    exact Nat.le_of_not_lt inside

/-- The row agrees with the text up to the position and is blank from there on. -/
def Shows (s : Getline) (text : Memory UInt8) (pos : Nat) : Prop :=
  (screen s).cursor = pos ∧
    ∀ i, (screen s).row.getD i 32 = if i < pos then text i else 32

theorem mirrors_iff {s : Getline} (waiting : s.result = none) :
    Mirrors s ↔ Shows s s.text s.pos := by
  unfold Mirrors Shows lineOf
  rw [visible_eq_iff]
  simp only [slice_getD]
  exact ⟨fun shown => shown waiting, fun shown _ => shown⟩

theorem mirrors_returned {s : Getline} {r : Int} (returned : s.result = some r) : Mirrors s :=
  fun waiting => absurd (returned.symm.trans waiting) (Option.some_ne_none _)

section Bytes

variable {limit : Nat} {s : Getline}

/-- After the test of the loop the line still mirrors, if it is open. -/
theorem mirrors_again {t : Getline} (shown : Mirrors t) : Mirrors (t.again limit) := by
  unfold Getline.again
  split
  · exact shown
  · exact mirrors_returned rfl

theorem screen_send (t : Getline) (b : UInt8) :
    screen (t.send [b]) = (screen t).receive b :=
  List.foldl_append

/-- A character appears at the cursor. -/
theorem shows_typed {b : UInt8} (printable : 32 ≤ b ∧ b ≤ 126) (shown : Shows s s.text s.pos) :
    Shows (typed true s b) (typed true s b).text (typed true s b).pos := by
  obtain ⟨cursor, row⟩ := shown
  have byte : UInt8.ofInt b.toNat = b := (cprGetch_codes b).2.2.2.2.2.2
  have text : (typed true s b).text = (s.text.set s.pos b).set (s.pos + 1) 0 :=
    congrArg (fun c => (s.text.set s.pos c).set (s.pos + 1) 0) byte
  have received : screen (typed true s b) = ⟨put 32 (screen s).row s.pos b, s.pos + 1⟩ := by
    refine (screen_send _ b).trans ((if_pos printable).trans ?_)
    change (⟨put 32 (screen s).row (screen s).cursor b, (screen s).cursor + 1⟩ : Terminal) = _
    rw [cursor]
  change Shows (typed true s b) (typed true s b).text (s.pos + 1)
  unfold Shows
  rw [received, text]
  refine ⟨rfl, fun i => ?_⟩
  rw [put_getD, row]
  by_cases here : i = s.pos
  · rw [if_pos here, if_pos (by omega), here, Memory.set_other _ _ (by omega), Memory.set_same]
  · rw [if_neg here]
    by_cases before : i < s.pos
    · rw [if_pos before, if_pos (by omega), Memory.set_other _ _ (by omega),
        Memory.set_other _ _ here]
    · rw [if_neg before, if_neg (by omega)]

/-- An erased character stays on the row, so it has to look like a blank. -/
theorem shows_shortened_iff (some_typed : 0 < s.pos) (shown : Shows s s.text s.pos) :
    Shows (shortened true s) (shortened true s).text (shortened true s).pos ↔
      s.text (s.pos - 1) = 32 := by
  obtain ⟨cursor, row⟩ := shown
  have received : screen (shortened true s) = ⟨(screen s).row, s.pos - 1⟩ := by
    refine (screen_send _ 8).trans ?_
    change (⟨(screen s).row, (screen s).cursor - 1⟩ : Terminal) = _
    rw [cursor]
  change Shows (shortened true s) (s.text.set (s.pos - 1) 0) (s.pos - 1) ↔ _
  unfold Shows
  rw [received]
  constructor
  · rintro ⟨-, blank⟩
    have last := blank (s.pos - 1)
    rw [if_neg (Nat.lt_irrefl _)] at last
    rw [← last, row, if_pos (by omega)]
  · intro space
    refine ⟨rfl, fun i => ?_⟩
    change (screen s).row.getD i 32 = _
    rw [row]
    by_cases before : i < s.pos - 1
    · rw [if_pos before, if_pos (by omega), Memory.set_other _ _ (by omega)]
    · rw [if_neg before]
      by_cases last : i = s.pos - 1
      · rw [last, if_pos (by omega), space]
      · rw [if_neg (by omega)]

/-- While a line is open there is room for one more character. -/
def Roomy (limit : Nat) (s : Getline) : Prop := s.result = none → s.pos < limit - 1

theorem roomy_again (t : Getline) : Roomy limit (t.again limit) := by
  unfold Roomy Getline.again
  split
  · rename_i room
    exact fun _ => room
  · exact nofun

theorem roomy_deliver (roomy : Roomy limit s) (echo : Bool) (b : UInt8) :
    Roomy limit (deliver limit echo s b) := by
  cases result : s.result with
  | some r =>
      rw [deliver, cprGetline_returned result]
      exact roomy
  | none =>
      rw [deliver, cprGetline_waiting result]
      rcases onKey_cases limit echo s (keyOf (some b)) with ⟨-, lost⟩ | returned | ⟨t, -, tested⟩
      · exact fun waiting => absurd (lost.symm.trans waiting) (Option.some_ne_none _)
      · exact fun waiting => absurd (returned.symm.trans waiting) (Option.some_ne_none _)
      · rw [tested]
        exact roomy_again t

/-- The echo of one byte keeps the row like the line, unless a character other than a
space is erased. -/
theorem mirrors_deliver_iff (roomy : Roomy limit s) (shown : Mirrors s) (b : UInt8) :
    Mirrors (deliver limit true s b) ↔ ErasesSpaces s b := by
  cases result : s.result with
  | some r =>
      rw [deliver, cprGetline_returned result]
      exact ⟨fun _ waiting => absurd (result.symm.trans waiting) (Option.some_ne_none _),
        fun _ => shown⟩
  | none =>
      rw [deliver, cprGetline_waiting result]
      have plain (typing : ¬ (b = 8 ∨ b = 127)) : ErasesSpaces s b :=
        fun _ erases => absurd erases typing
      have flag (cr : Bool) : Mirrors ((setCr s cr).again limit) := mirrors_again shown
      rcases keyOf_cases b with ⟨rfl, key⟩ | ⟨printable, key⟩ | ⟨rfl, key⟩ | ⟨rfl, key⟩ |
        ⟨erases, key⟩ | ⟨⟨_, kept, _⟩, key⟩
      · rw [key]
        exact iff_of_true (mirrors_returned rfl) (plain (by decide))
      · rw [key]
        have appears := shows_typed printable ((mirrors_iff result).mp shown)
        have typing : ¬ (b = 8 ∨ b = 127) := by
          rintro (rfl | rfl)
          · exact absurd printable.1 (by decide)
          · exact absurd printable.2 (by decide)
        exact iff_of_true (mirrors_again ((mirrors_iff (s := typed true s b) result).mpr appears))
          (plain typing)
      · rw [key]
        exact iff_of_true (mirrors_returned rfl) (plain (by decide))
      · rw [key]
        refine iff_of_true ?_ (plain (by decide))
        unfold onKey
        by_cases again : s.cr = true
        · simp only [if_pos again]
          exact mirrors_returned rfl
        · simp only [if_neg again]
          exact flag true
      · rw [key]
        unfold onKey
        by_cases empty : s.pos = 0
        · simp only [if_pos empty]
          exact iff_of_true (flag false) fun _ _ some_typed =>
            absurd empty (Nat.ne_of_gt some_typed)
        · simp only [if_neg empty]
          have some_typed : 0 < s.pos := Nat.pos_of_ne_zero empty
          have room : s.pos - 1 < limit - 1 := Nat.lt_of_le_of_lt (Nat.sub_le _ _) (roomy result)
          rw [@again_of_room limit (shortened true s) room,
            mirrors_iff (s := shortened true s) result,
            shows_shortened_iff some_typed ((mirrors_iff result).mp shown)]
          exact ⟨fun space _ _ _ => space, fun spaces => spaces result erases some_typed⟩
      · rw [key]
        exact iff_of_true (flag false) (plain kept)

end Bytes

theorem startLine_roomy (text : Memory UInt8) (limit : Nat) :
    Roomy limit (startLine text limit) := by
  unfold startLine
  split
  · exact nofun
  · exact roomy_again _

theorem startLine_mirrors (text : Memory UInt8) (limit : Nat) :
    Mirrors (startLine text limit) := by
  unfold startLine
  split
  · exact mirrors_returned rfl
  · exact mirrors_again fun _ => ⟨rfl, rfl⟩

/-- The terminal shows the line at every point of a call exactly when nothing but spaces
is ever erased. -/
theorem echo_mirrors_iff (limit : Nat) (text : Memory UInt8) (bytes : List UInt8) :
    Along (deliver limit true) Mirrors (startLine text limit) bytes ↔
      Throughout (deliver limit true) ErasesSpaces (startLine text limit) bytes :=
  along_iff_throughout (Roomy limit) (fun _ b roomy _ _ => roomy_deliver roomy true b)
    (fun _ b roomy shown => mirrors_deliver_iff roomy shown b) (startLine_roomy text limit)
    (startLine_mirrors text limit) bytes

/-- After `a` and a backspace the line is empty and the row still shows the `a`. -/
theorem echo_of_erased :
    ¬ Along (deliver 80 true) Mirrors (startLine (fun _ => 0) 80) [97, 8] := by
  rintro ⟨_, _, shown⟩
  have row := (shown (by decide +kernel)).2
  revert row
  decide +kernel

end CprFormal.Socket.Echo
