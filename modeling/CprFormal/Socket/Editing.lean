import Mathlib.Data.List.Induction
import Mathlib.Data.List.ReduceOption
import CprFormal.Socket.Model

/-!
# The edited line

Every answer of `recv` is a key.  What the keys do to the line is a stack: a character
is pushed, a backspace pops, and the other bytes leave the line.  While the line is
open its text is that stack and there is room for one more character.
-/

namespace CprFormal.Socket.Editing

open CprFormal.Library.FlatMemory CprFormal.Socket.Model CprFormal.Strchar.Strlen

/-! ## Keys -/

/-- What an answer of `recv` means for the line. -/
inductive Key where
  | lost
  | character (b : UInt8)
  | newline
  | carriage
  | erase
  | ignored
  deriving DecidableEq

def keyOf : Option UInt8 → Key
  | none => .lost
  | some b =>
      if b = 255 then .lost
      else if 32 ≤ b ∧ b ≤ 126 then .character b
      else if b = 10 then .newline
      else if b = 13 then .carriage
      else if b = 8 ∨ b = 127 then .erase
      else .ignored

/-- The bytes the erase sequence comes to when its limit is zero. -/
theorem cprPutline_erase : cprPutline eraseSequence 0 = [8] := by
  decide

def setCr (s : Getline) (cr : Bool) : Getline := { s with cr := cr }

/-- The line with one more character. -/
def typed (echo : Bool) (s : Getline) (b : UInt8) : Getline :=
  ((setCr s false).push b.toNat).send (if echo then [b] else [])

/-- The line without its last character. -/
def shortened (echo : Bool) (s : Getline) : Getline :=
  (setCr s false).pop.send (if echo then [8] else [])

/-- A key on an open line. -/
def onKey (limit : Nat) (echo : Bool) (s : Getline) : Key → Getline
  | .lost => { s with result := some (-1) }
  | .character b => (typed echo s b).again limit
  | .newline => { s.send (if echo && s.cr then [13, 10] else [10]) with result := some s.pos }
  | .carriage =>
      if s.cr = true then { s with result := some s.pos } else (setCr s true).again limit
  | .erase =>
      if s.pos = 0 then (setCr s false).again limit else (shortened echo s).again limit
  | .ignored => (setCr s false).again limit

/-- How the codes of a byte compare with the codes the loop asks for. -/
theorem cprGetch_codes (b : UInt8) :
    (cprGetch (some b) = -1 ↔ b = 255) ∧
      (cprGetch (some b) > 31 ∧ cprGetch (some b) < 127 ↔ 32 ≤ b ∧ b ≤ 126) ∧
      (cprGetch (some b) = 10 ↔ b = 10) ∧ (cprGetch (some b) = 13 ↔ b = 13) ∧
      (cprGetch (some b) = 8 ∨ cprGetch (some b) = 127 ↔ b = 8 ∨ b = 127) ∧
      UInt8.ofInt (cprGetch (some b)) = b ∧ UInt8.ofInt b.toNat = b := by
  obtain ⟨b⟩ := b
  revert b
  decide +kernel

theorem send_nil (s : Getline) : s.send [] = s := by
  unfold Getline.send
  rw [List.append_nil]

theorem send_send (s : Getline) (first second : List UInt8) :
    (s.send first).send second = s.send (first ++ second) := by
  unfold Getline.send
  rw [List.append_assoc]

theorem send_if (s : Getline) (c : Prop) [Decidable c] (bytes : List UInt8) :
    (if c then s.send bytes else s) = s.send (if c then bytes else []) := by
  split
  · rfl
  · exact (send_nil s).symm

theorem getlineBody_eq (limit : Nat) (echo : Bool) (s : Getline) (answer : Option UInt8) :
    getlineBody limit echo s answer = onKey limit echo s (keyOf answer) := by
  cases answer with
  | none => rfl
  | some b =>
      obtain ⟨lost, printable, newline, carriage, erase, code, same⟩ := cprGetch_codes b
      have pushed (t : Getline) : t.push (cprGetch (some b)) = t.push b.toNat := by
        unfold Getline.push
        rw [code, same]
      unfold getlineBody keyOf
      simp only [lost, printable, newline, carriage, erase, code, pushed, send_if, cprPutch,
        cprPutline_erase]
      by_cases h : b = 255
      · rw [if_pos h, if_pos h]
        rfl
      rw [if_neg h, if_neg h]
      by_cases h : 32 ≤ b ∧ b ≤ 126
      · rw [if_pos h, if_pos h]
        rfl
      rw [if_neg h, if_neg h]
      by_cases h : b = 10
      · rw [if_pos h, if_pos h, send_send]
        change _ = { s.send (if (echo && s.cr) = true then [13, 10] else [10]) with
          result := some (s.pos : Int) }
        cases echo <;> cases s.cr <;> rfl
      rw [if_neg h, if_neg h]
      by_cases h : b = 13
      · rw [if_pos h, if_pos h]
        change _ = if s.cr = true then { s with result := some (s.pos : Int) }
          else (setCr s true).again limit
        by_cases again : s.cr = true
        · rw [if_pos again, if_pos ⟨h, again⟩]
        · rw [if_neg again, if_neg fun both => again both.2]
          rfl
      rw [if_neg (fun both => h both.1), if_neg h, if_neg h]
      by_cases h : b = 8 ∨ b = 127
      · rw [if_pos h, if_pos h]
        rfl
      · rw [if_neg h, if_neg h]
        rfl

/-- On an open line an answer is its key. -/
theorem cprGetline_waiting {limit : Nat} {echo : Bool} {s : Getline} (waiting : s.result = none)
    (answer : Option UInt8) :
    cprGetline limit echo s answer = onKey limit echo s (keyOf answer) := by
  have awake : ¬ s.result.isSome = true := by
    rw [waiting]
    decide
  exact (if_neg awake).trans (getlineBody_eq limit echo s answer)

/-- A returned line stays as it is. -/
theorem cprGetline_returned {limit : Nat} {echo : Bool} {s : Getline} {r : Int}
    (returned : s.result = some r) (answer : Option UInt8) :
    cprGetline limit echo s answer = s :=
  if_pos (by rw [returned]; rfl)

/-- A key fails the call, returns the position, or goes on to the test of the loop. -/
theorem onKey_cases (limit : Nat) (echo : Bool) (s : Getline) (key : Key) :
    key = .lost ∧ (onKey limit echo s key).result = some (-1) ∨
      (onKey limit echo s key).result = some (s.pos : Int) ∨
      ∃ t : Getline, t.result = s.result ∧ onKey limit echo s key = t.again limit := by
  cases key with
  | lost => exact .inl ⟨rfl, rfl⟩
  | character b => exact .inr (.inr ⟨typed echo s b, rfl, rfl⟩)
  | newline => exact .inr (.inl rfl)
  | carriage =>
      by_cases again : s.cr = true
      · exact .inr (.inl (congrArg Getline.result (if_pos again)))
      · exact .inr (.inr ⟨setCr s true, rfl, if_neg again⟩)
  | erase =>
      by_cases empty : s.pos = 0
      · exact .inr (.inr ⟨setCr s false, rfl, if_pos empty⟩)
      · exact .inr (.inr ⟨shortened echo s, rfl, if_neg empty⟩)
  | ignored => exact .inr (.inr ⟨setCr s false, rfl, rfl⟩)

/-- A character is pushed, a backspace pops, other bytes are ignored. -/
def edit (line : List UInt8) (b : UInt8) : List UInt8 :=
  if 32 ≤ b ∧ b ≤ 126 then line ++ [b]
  else if b = 8 ∨ b = 127 then line.dropLast
  else line

def edited (bytes : List UInt8) : List UInt8 := bytes.foldl edit []

/-- The byte that ends a line: a newline, a carriage return behind another one, or the
character that fills the line. -/
def EndsLine (limit : Nat) (before : List UInt8) (b : UInt8) : Prop :=
  b = 10 ∨ (b = 13 ∧ before.getLast? = some 13) ∨
    ((32 ≤ b ∧ b ≤ 126) ∧ (edited (before ++ [b])).length = limit - 1)

theorem edited_append (bytes : List UInt8) (b : UInt8) :
    edited (bytes ++ [b]) = edit (edited bytes) b :=
  List.foldl_append

theorem edit_character {b : UInt8} (printable : 32 ≤ b ∧ b ≤ 126) (line : List UInt8) :
    edit line b = line ++ [b] := if_pos printable

theorem edited_printable (bytes : List UInt8) : ∀ b ∈ edited bytes, 32 ≤ b ∧ b ≤ 126 := by
  induction bytes using List.reverseRecOn with
  | nil => exact nofun
  | append_singleton bytes b ih =>
      rw [edited_append]
      intro c member
      unfold edit at member
      split at member
      · rename_i printable
        rcases List.mem_append.mp member with old | new
        · exact ih c old
        · rw [List.mem_singleton.mp new]
          exact printable
      · split at member
        · exact ih c ((List.dropLast_sublist _).subset member)
        · exact ih c member

theorem edit_erase {b : UInt8} (erase : b = 8 ∨ b = 127) (line : List UInt8) :
    edit line b = line.dropLast := by
  rcases erase with rfl | rfl
  · rfl
  · rfl

theorem edit_other {b : UInt8} (plain : ¬ (32 ≤ b ∧ b ≤ 126)) (kept : ¬ (b = 8 ∨ b = 127))
    (line : List UInt8) : edit line b = line := by
  unfold edit
  rw [if_neg plain, if_neg kept]

/-- The key of a byte, with what the byte is. -/
theorem keyOf_cases (b : UInt8) :
    b = 255 ∧ keyOf (some b) = .lost ∨
      (32 ≤ b ∧ b ≤ 126) ∧ keyOf (some b) = .character b ∨
      b = 10 ∧ keyOf (some b) = .newline ∨ b = 13 ∧ keyOf (some b) = .carriage ∨
      (b = 8 ∨ b = 127) ∧ keyOf (some b) = .erase ∨
      (¬ (32 ≤ b ∧ b ≤ 126) ∧ ¬ (b = 8 ∨ b = 127) ∧ b ≠ 13) ∧ keyOf (some b) = .ignored := by
  unfold keyOf
  by_cases lost : b = 255
  · exact .inl ⟨lost, if_pos lost⟩
  by_cases printable : 32 ≤ b ∧ b ≤ 126
  · simp only [if_neg lost, if_pos printable]
    exact .inr (.inl ⟨printable, trivial⟩)
  by_cases newline : b = 10
  · simp only [if_neg lost, if_neg printable, if_pos newline]
    exact .inr (.inr (.inl ⟨newline, trivial⟩))
  by_cases carriage : b = 13
  · simp only [if_neg lost, if_neg printable, if_neg newline, if_pos carriage]
    exact .inr (.inr (.inr (.inl ⟨carriage, trivial⟩)))
  by_cases erase : b = 8 ∨ b = 127
  · simp only [if_neg lost, if_neg printable, if_neg newline, if_neg carriage, if_pos erase]
    exact .inr (.inr (.inr (.inr (.inl ⟨erase, trivial⟩))))
  · simp only [if_neg lost, if_neg printable, if_neg newline, if_neg carriage, if_neg erase]
    exact .inr (.inr (.inr (.inr (.inr ⟨⟨printable, erase, carriage⟩, trivial⟩))))

/-- The line of the bytes received is open. -/
structure OpenLine (limit : Nat) (s : Getline) (bytes : List UInt8) : Prop where
  waiting : s.result = none
  reads : Reads s.text (edited bytes)
  pos : s.pos = (edited bytes).length
  room : s.pos < limit - 1
  cr : s.cr = true ↔ bytes.getLast? = some 13

/-- The line has been returned. -/
structure EndedLine (limit : Nat) (s : Getline) (bytes : List UInt8) (r : Int) (line : List UInt8) :
    Prop where
  reads : Reads s.text line
  fits : line.length ≤ limit - 1
  printable : ∀ b ∈ line, 32 ≤ b ∧ b ≤ 126
  value : 0 ≤ r → r = line.length
  stack : 0 ≤ r → line = edited bytes
  last : 0 ≤ r → ∃ before b, bytes = before ++ [b] ∧ EndsLine limit before b

/-- A character behind a text, with a new terminator. -/
theorem reads_push {mem : Memory UInt8} {line : List UInt8} (reads : Reads mem line) {b : UInt8}
    (charged : b ≠ 0) :
    Reads ((mem.set line.length b).set (line.length + 1) 0) (line ++ [b]) := by
  refine reads.append (fun i early => ?_) ⟨fun i h => ?_, fun c member => ?_, ?_⟩
  · rw [Memory.set_other _ _ (by omega), Memory.set_other _ _ (by omega)]
  · have first : i = 0 := Nat.lt_one_iff.mp h
    subst first
    exact (Memory.set_other _ _ (by omega)).trans (mem.set_same _ b)
  · rw [List.mem_singleton.mp member]
    exact charged
  · exact Memory.set_same _ _ _

theorem reads_pop {mem : Memory UInt8} {line : List UInt8} (reads : Reads mem line) :
    Reads (mem.set (line.length - 1) 0) line.dropLast := by
  rw [List.dropLast_eq_take]
  exact reads.cut (Nat.sub_le _ _)

theorem again_of_room {limit : Nat} {s : Getline} (room : s.pos < limit - 1) :
    s.again limit = s := if_pos room

theorem again_of_full {limit : Nat} {s : Getline} (full : limit - 1 ≤ s.pos) :
    s.again limit = { s with result := some s.pos } := if_neg (Nat.not_lt_of_le full)

/-- A line returned at its position. -/
theorem OpenLine.ended {limit : Nat} {s t : Getline} {bytes : List UInt8} {b : UInt8}
    (line_open : OpenLine limit s bytes) (text : t.text = s.text)
    (same : edit (edited bytes) b = edited bytes) (last : EndsLine limit bytes b) :
    EndedLine limit t (bytes ++ [b]) s.pos (edited bytes) where
  reads := text ▸ line_open.reads
  fits := line_open.pos ▸ Nat.le_of_lt line_open.room
  printable := edited_printable bytes
  value _ := congrArg Nat.cast line_open.pos
  stack _ := ((edited_append bytes b).trans same).symm
  last _ := ⟨bytes, b, rfl, last⟩

/-- A line that stays as it is. -/
theorem OpenLine.kept {limit : Nat} {s t : Getline} {bytes : List UInt8} {b : UInt8}
    (line_open : OpenLine limit s bytes) (waiting : t.result = none) (text : t.text = s.text)
    (pos : t.pos = s.pos) (same : edit (edited bytes) b = edited bytes)
    (cr : t.cr = true ↔ b = 13) : OpenLine limit t (bytes ++ [b]) := by
  have line : edited (bytes ++ [b]) = edited bytes := (edited_append bytes b).trans same
  refine ⟨waiting, ?_, ?_, ?_, ?_⟩
  · rw [line, text]
    exact line_open.reads
  · rw [line, pos]
    exact line_open.pos
  · rw [pos]
    exact line_open.room
  · rw [cr, List.getLast?_concat]
    exact ⟨fun carriage => carriage ▸ rfl, Option.some.inj⟩

/-- The line is still open, or it has been returned. -/
def After (limit : Nat) (s : Getline) (bytes : List UInt8) : Prop :=
  OpenLine limit s bytes ∨ ∃ r line, s.result = some r ∧ EndedLine limit s bytes r line

section Keys

variable {limit : Nat} {s : Getline} {bytes : List UInt8} {b : UInt8} {echo : Bool}

theorem OpenLine.lost (line_open : OpenLine limit s bytes) (more : List UInt8) :
    After limit (onKey limit echo s .lost) (bytes ++ more) :=
  .inr ⟨-1, edited bytes, rfl, line_open.reads, line_open.pos ▸ Nat.le_of_lt line_open.room,
    edited_printable bytes, fun up => absurd up (by decide), fun up => absurd up (by decide),
    fun up => absurd up (by decide)⟩

/-- A new character may fill the line. -/
theorem OpenLine.character (line_open : OpenLine limit s bytes)
    (printable : 32 ≤ b ∧ b ≤ 126) :
    After limit ((typed echo s b).again limit) (bytes ++ [b]) := by
  have line : edited (bytes ++ [b]) = edited bytes ++ [b] :=
    (edited_append bytes b).trans (edit_character printable _)
  have pos : (typed echo s b).pos = s.pos + 1 := rfl
  have length : (edited (bytes ++ [b])).length = s.pos + 1 := by
    rw [line, List.length_append, line_open.pos]
    rfl
  have charged : b ≠ 0 := fun zero => absurd (zero ▸ printable.1) (by decide)
  have byte : UInt8.ofInt b.toNat = b := (cprGetch_codes b).2.2.2.2.2.2
  have room := line_open.room
  have reads : Reads (typed echo s b).text (edited (bytes ++ [b])) := by
    change Reads ((s.text.set s.pos (UInt8.ofInt b.toNat)).set (s.pos + 1) 0) _
    rw [line, byte, line_open.pos]
    exact reads_push line_open.reads charged
  by_cases full : limit - 1 ≤ s.pos + 1
  · rw [again_of_full full]
    refine .inr ⟨_, edited (bytes ++ [b]), rfl, reads, by omega, edited_printable _,
      fun _ => ?_, fun _ => rfl, fun _ => ⟨bytes, b, rfl, .inr (.inr ⟨printable, by omega⟩)⟩⟩
    exact congrArg Nat.cast (pos.trans length.symm)
  · rw [again_of_room (Nat.lt_of_not_le full)]
    refine .inl ⟨line_open.waiting, reads, pos.trans length.symm, Nat.lt_of_not_le full, ?_⟩
    rw [List.getLast?_concat]
    refine ⟨nofun, fun carriage => ?_⟩
    rw [Option.some.inj carriage] at printable
    exact absurd printable.1 (by decide)

theorem OpenLine.newline (line_open : OpenLine limit s bytes) :
    After limit (onKey limit echo s .newline) (bytes ++ [10]) :=
  .inr ⟨s.pos, edited bytes, rfl,
    line_open.ended rfl (edit_other (by decide) (by decide) _) (.inl rfl)⟩

theorem OpenLine.carriage (line_open : OpenLine limit s bytes) :
    After limit (onKey limit echo s .carriage) (bytes ++ [13]) := by
  have same : edit (edited bytes) 13 = edited bytes := edit_other (by decide) (by decide) _
  unfold onKey
  by_cases again : s.cr = true
  · simp only [if_pos again]
    exact .inr ⟨s.pos, edited bytes, rfl,
      line_open.ended rfl same (.inr (.inl ⟨rfl, line_open.cr.mp again⟩))⟩
  · simp only [if_neg again]
    rw [@again_of_room limit (setCr s true) line_open.room]
    exact .inl (line_open.kept line_open.waiting rfl rfl same ⟨fun _ => rfl, fun _ => rfl⟩)

/-- A byte that only clears the flag. -/
theorem OpenLine.cleared (line_open : OpenLine limit s bytes)
    (same : edit (edited bytes) b = edited bytes) (other : b ≠ 13) :
    After limit ((setCr s false).again limit) (bytes ++ [b]) := by
  rw [@again_of_room limit (setCr s false) line_open.room]
  exact .inl (line_open.kept line_open.waiting rfl rfl same
    ⟨nofun, fun carriage => absurd carriage other⟩)

theorem OpenLine.erase (line_open : OpenLine limit s bytes) (erases : b = 8 ∨ b = 127) :
    After limit (onKey limit echo s .erase) (bytes ++ [b]) := by
  have popped : edit (edited bytes) b = (edited bytes).dropLast := edit_erase erases _
  have other : b ≠ 13 := fun carriage => by
    rw [carriage] at erases
    exact absurd erases (by decide)
  unfold onKey
  by_cases empty : s.pos = 0
  · simp only [if_pos empty]
    have none_typed : edited bytes = [] :=
      List.length_eq_zero_iff.mp (line_open.pos.symm.trans empty)
    exact line_open.cleared (by rw [popped, none_typed]; rfl) other
  · simp only [if_neg empty]
    have line : edited (bytes ++ [b]) = (edited bytes).dropLast :=
      (edited_append bytes b).trans popped
    have room : s.pos - 1 < limit - 1 := Nat.lt_of_le_of_lt (Nat.sub_le _ _) line_open.room
    rw [@again_of_room limit (shortened echo s) room]
    refine .inl ⟨line_open.waiting, ?_, ?_, room, ?_⟩
    · change Reads (s.text.set (s.pos - 1) 0) _
      rw [line, line_open.pos]
      exact reads_pop line_open.reads
    · change s.pos - 1 = _
      rw [line, List.length_dropLast, line_open.pos]
    · rw [List.getLast?_concat]
      exact ⟨nofun, fun carriage => absurd (Option.some.inj carriage) other⟩

/-- An answer on an open line adds its byte, or ends the line. -/
theorem OpenLine.step (line_open : OpenLine limit s bytes) (echo : Bool)
    (answer : Option UInt8) :
    After limit (cprGetline limit echo s answer) (bytes ++ answer.toList) := by
  rw [cprGetline_waiting line_open.waiting]
  cases answer with
  | none =>
      exact line_open.lost []
  | some b =>
      rcases keyOf_cases b with ⟨-, key⟩ | ⟨printable, key⟩ | ⟨rfl, key⟩ | ⟨rfl, key⟩ |
        ⟨erases, key⟩ | ⟨⟨plain, kept, other⟩, key⟩
      · rw [key]
        exact line_open.lost [b]
      · rw [key]
        exact line_open.character printable
      · rw [key]
        exact line_open.newline
      · rw [key]
        exact line_open.carriage
      · rw [key]
        exact line_open.erase erases
      · rw [key]
        exact line_open.cleared (edit_other plain kept _) other

end Keys

/-! ## Whole calls -/

/-- `cpr_getline` as far as the answers go. -/
def getline (limit : Nat) (echo : Bool) (text : Memory UInt8) (answers : List (Option UInt8)) :
    Getline :=
  answers.foldl (cprGetline limit echo) (startLine text limit)

/-- The answers that are taken before the line is returned. -/
def consumed (limit : Nat) (echo : Bool) : Getline → List (Option UInt8) → List (Option UInt8)
  | _, [] => []
  | s, answer :: rest =>
      if s.result.isSome then []
      else answer :: consumed limit echo (cprGetline limit echo s answer) rest

/-- The bytes that a call consumes. -/
def received (limit : Nat) (echo : Bool) (text : Memory UInt8) (answers : List (Option UInt8)) :
    List UInt8 :=
  (consumed limit echo (startLine text limit) answers).reduceOption

theorem foldl_returned (limit : Nat) (echo : Bool) {s : Getline} {r : Int}
    (returned : s.result = some r) (answers : List (Option UInt8)) :
    answers.foldl (cprGetline limit echo) s = s := by
  induction answers with
  | nil => rfl
  | cons answer rest ih => rw [List.foldl_cons, cprGetline_returned returned, ih]

theorem consumed_returned (limit : Nat) (echo : Bool) {s : Getline} {r : Int}
    (returned : s.result = some r) (answers : List (Option UInt8)) :
    consumed limit echo s answers = [] := by
  cases answers with
  | nil => rfl
  | cons answer rest => exact if_pos (by rw [returned]; rfl)

/-- From an open line on, what has been received so far and what is still consumed make
up the line that is returned. -/
theorem OpenLine.run {limit : Nat} {s : Getline} {bytes : List UInt8}
    (line_open : OpenLine limit s bytes) (echo : Bool) (answers : List (Option UInt8)) :
    After limit (answers.foldl (cprGetline limit echo) s)
      (bytes ++ (consumed limit echo s answers).reduceOption) := by
  induction answers generalizing s bytes with
  | nil =>
      rw [consumed, List.reduceOption_nil, List.append_nil]
      exact .inl line_open
  | cons answer rest ih =>
      have awake : ¬ s.result.isSome = true := by
        rw [line_open.waiting]
        decide
      have taken : (consumed limit echo s (answer :: rest)).reduceOption =
          answer.toList ++
            (consumed limit echo (cprGetline limit echo s answer) rest).reduceOption := by
        rw [consumed, if_neg awake]
        cases answer <;> rfl
      rw [List.foldl_cons, taken, ← List.append_assoc]
      rcases line_open.step echo answer with still | ⟨r, line, returned, ended⟩
      · exact ih still
      · rw [foldl_returned limit echo returned, consumed_returned limit echo returned,
          List.reduceOption_nil, List.append_nil]
        exact .inr ⟨r, line, returned, ended⟩

theorem startLine_open {limit : Nat} (room : 2 ≤ limit) (text : Memory UInt8) :
    OpenLine limit (startLine text limit) [] := by
  have first : 0 < limit - 1 := by omega
  unfold startLine
  rw [if_neg (by omega), @again_of_room limit ⟨text.set 0 0, 0, false, [], none⟩ first]
  exact ⟨rfl, ⟨nofun, nofun, text.set_same 0 0⟩, rfl, first, ⟨nofun, nofun⟩⟩

/-- What a call returns: the text is terminated and has printable characters only, and
unless the call has failed it is the stack of the bytes consumed, of which the last one
ends a line. -/
theorem cprGetline_returns {limit : Nat} (room : 2 ≤ limit) (echo : Bool) (text : Memory UInt8)
    (answers : List (Option UInt8)) {r : Int}
    (returned : (getline limit echo text answers).result = some r) :
    ∃ line, EndedLine limit (getline limit echo text answers)
      (received limit echo text answers) r line := by
  rcases (startLine_open room text).run echo answers with still | ⟨r', line, here, ended⟩
  · exact absurd (still.waiting.symm.trans returned) nofun
  · have same : r' = r := Option.some.inj (here.symm.trans returned)
    subst same
    exact ⟨line, ended⟩

/-- `ab`, a backspace, `c` and a newline are the line `ac`. -/
theorem cprGetline_returns_ac :
    ∃ line, EndedLine 80 (getline 80 true (fun _ => 0)
      [some 97, some 98, some 127, some 99, some 10])
      (received 80 true (fun _ => 0) [some 97, some 98, some 127, some 99, some 10]) 2 line :=
  cprGetline_returns (by decide) true (fun _ => 0) _ (by decide +kernel)

end CprFormal.Socket.Editing
