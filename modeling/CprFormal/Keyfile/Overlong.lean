import CprFormal.Library.Transition
import CprFormal.Keyfile.Files

/-!
# Lines that are too long

`load_keyfile` skips a buffer without a newline as too long and then takes the next 95
bytes for a line of their own.  What is left of an overlong line behind its last full
buffer is read like any other line.
-/

namespace CprFormal.Keyfile.Overlong

open CprFormal.Library.FlatMemory CprFormal.Library.Transition
open CprFormal.Keyfile.Model CprFormal.Keyfile.Grammar CprFormal.Keyfile.Lines
open CprFormal.Keyfile.Files

/-- The line fits into the buffer. -/
def fits (line : TextLine) : Bool := line.text.length ≤ 94

/-- The file without the lines that have more than 94 bytes before their newline. -/
def kept (f : TextFile) : TextFile := { f with lines := f.lines.filter fits }

/-- The file cut behind its first lines. -/
def first (f : TextFile) (n : Nat) : TextFile := { f with lines := f.lines.take n }

/-- The overlong lines of a file are ignored: in the file, up to every line of it, and
each of them by itself. -/
structure Ignored (stack stack' : Memory UInt8) (f : TextFile) : Prop where
  whole : loadKeyfile stack f.bytes = loadKeyfile stack' (kept f).bytes
  same : ∀ n, loadKeyfile stack (first f n).bytes = loadKeyfile stack' (kept (first f n)).bytes
  silent : ∀ n, ∀ line ∈ f.lines[n]?, fits line = false →
    loadKeyfile stack (first f (n + 1)).bytes = loadKeyfile stack (first f n).bytes

/-- A line in the load of the whole file and in the load of the file without overlong
lines. -/
def passBoth (s : Loading × Loading) (line : TextLine) : Loading × Loading :=
  (loadText s.1 line, if fits line then loadText s.2 line else s.2)

/-- The rest of an overlong line is neither a section nor a key, and finds no bracket
behind itself; a line that fits finds a bracket behind itself in both loads or in none. -/
def Ignorable (s : Loading × Loading) (line : TextLine) : Prop :=
  if fits line then Finds s.1.mem line.text ↔ Finds s.2.mem line.text
  else
    let text := lastPiece line.text
    ¬ Finds (filled s.1.mem line.text) text ∧
      (0 ∈ text ∨ (¬ Heading (rtrim text) ∧ ¬ Assigns (trimmed text)))

/-- Both loads have the same sections. -/
def Same (s : Loading × Loading) : Prop := s.1.sections = s.2.sections

theorem passBoth_foldl (lines : List TextLine) (s : Loading × Loading) :
    lines.foldl passBoth s = (lines.foldl loadText s.1, (lines.filter fits).foldl loadText s.2) := by
  induction lines generalizing s with
  | nil => rfl
  | cons line lines ih =>
      rw [List.foldl_cons, ih, List.foldl_cons, List.filter_cons]
      unfold passBoth
      cases fits line with
      | false => rfl
      | true => rfl

theorem lastPiece_length (text : List UInt8) : (lastPiece text).length ≤ 94 := by
  unfold lastPiece
  rw [List.length_drop]
  omega

theorem lastPiece_oneLine (line : TextLine) : 10 ∉ lastPiece line.text := fun newline =>
  line.oneLine (List.mem_of_mem_drop newline)

/-- One line keeps the sections of both loads the same exactly when it is ignorable. -/
theorem passBoth_iff (s : Loading × Loading) (line : TextLine) (same : Same s) :
    Same (passBoth s line) ↔ Ignorable s line := by
  unfold Same passBoth Ignorable
  cases fit : fits line with
  | true =>
      have short : line.text.length ≤ 94 := of_decide_eq_true fit
      rw [if_pos rfl, if_pos rfl, loadText_short s.1 short, loadText_short s.2 short,
        loadLine_same_iff same, parseLine_reading s.1.mem line.oneLine short,
        parseLine_reading s.2.mem line.oneLine short]
      exact readLine_eq_iff s.1.mem s.2.mem line.text
  | false =>
      rw [if_neg Bool.false_ne_true, if_neg Bool.false_ne_true, ← same]
      unfold loadText
      rw [load_pieces s.1 line.oneLine]
      refine (loadLine_still_iff _ _).trans ?_
      rw [parseLine_reading _ (lastPiece_oneLine line) (lastPiece_length line.text)]
      exact readLine_skip_iff _ _

theorem same_iff (stack stack' : Memory UInt8) (f : TextFile) :
    (∀ n, loadKeyfile stack (first f n).bytes = loadKeyfile stack' (kept (first f n)).bytes) ↔
      Throughout passBoth Ignorable (start stack, start stack') f.lines := by
  have inv : Same (start stack, start stack') := rfl
  rw [← along_iff_throughout (fun _ => True) (fun _ _ _ _ _ => trivial)
    (fun s line _ same => passBoth_iff s line same) trivial inv, along_iff_take]
  refine forall_congr' fun n => ?_
  rw [passBoth_foldl, load_file, load_file]
  rfl

/-- The overlong lines of a file are ignored exactly when the rests of all of them say
nothing and no other line finds a bracket behind itself because of them. -/
theorem overlong_ignored_iff (stack stack' : Memory UInt8) (f : TextFile) :
    Ignored stack stack' f ↔
      Throughout passBoth Ignorable (start stack, start stack') f.lines := by
  rw [← same_iff]
  refine ⟨Ignored.same, fun same => ⟨?_, same, fun n line here overlong => ?_⟩⟩
  · have whole : first f f.lines.length = f := by
      unfold first
      rw [List.take_length]
    have all := same f.lines.length
    rwa [whole] at all
  · have dropped : kept (first f (n + 1)) = kept (first f n) := by
      unfold kept first
      dsimp only
      rw [List.take_add_one, Option.mem_def.mp here, List.filter_append]
      change TextFile.mk (_ ++ [line].filter fits) _ = _
      rw [List.filter_cons, overlong, if_neg Bool.false_ne_true, List.filter_nil, List.append_nil]
    rw [same (n + 1), same n, dropped]

theorem keyBehind_oneLine : 10 ∉ List.replicate 95 120 ++ ([97, 98, 61, 49] : List UInt8) := by
  decide

/-- A key behind a full buffer. -/
def keyBehind : TextFile where
  lines := [⟨_, keyBehind_oneLine⟩]
  rest := emptyLine

/-- The last four bytes of a line of 99 bytes become a key. -/
theorem overlong_read :
    ¬ ∀ (stack : Memory UInt8) (f : TextFile),
      loadKeyfile stack f.bytes = loadKeyfile stack (kept f).bytes := by
  intro ignored
  have same := ignored (fun _ => 0) keyBehind
  have differ : loadKeyfile (fun _ => 0) keyBehind.bytes ≠
      loadKeyfile (fun _ => 0) (kept keyBehind).bytes := by
    decide +kernel
  exact differ same

end CprFormal.Keyfile.Overlong
