import CprFormal.Keyfile.LineBuffer

/-!
# The lines of a file

A file is a list of lines that each end in a newline, with a rest behind the last one.
`load_keyfile` takes the lines one after the other, a long one in pieces of 95 bytes of
which only the last can bring something.
-/

namespace CprFormal.Keyfile.Files

open CprFormal.Library.FlatMemory
open CprFormal.Strchar.Strlen
open CprFormal.Keyfile.Model CprFormal.Keyfile.Chunks CprFormal.Keyfile.Grammar
open CprFormal.Keyfile.Outline CprFormal.Keyfile.Lines

/-- A line without its newline. -/
structure TextLine where
  text : List UInt8
  oneLine : 10 ∉ text

def emptyLine : TextLine := ⟨[], List.not_mem_nil⟩

/-- A file as its lines and what is left behind the last newline. -/
structure TextFile where
  lines : List TextLine
  rest : TextLine

def TextFile.bytes (f : TextFile) : List UInt8 :=
  (f.lines.flatMap fun line => line.text ++ [10]) ++ f.rest.text

/-- Every file is one. -/
theorem exists_textFile (file : List UInt8) : ∃ f : TextFile, f.bytes = file := by
  induction file with
  | nil => exact ⟨⟨[], emptyLine⟩, rfl⟩
  | cons b file ih =>
      obtain ⟨⟨lines, rest⟩, rfl⟩ := ih
      by_cases newline : b = 10
      · subst newline
        exact ⟨⟨emptyLine :: lines, rest⟩, rfl⟩
      · have other {text : List UInt8} (oneLine : 10 ∉ text) : 10 ∉ b :: text :=
          List.not_mem_cons_of_ne_of_not_mem (Ne.symm newline) oneLine
        cases lines with
        | nil => exact ⟨⟨[], ⟨b :: rest.text, other rest.oneLine⟩⟩, rfl⟩
        | cons line lines => exact ⟨⟨⟨b :: line.text, other line.oneLine⟩ :: lines, rest⟩, rfl⟩

/-- A text is taken apart into pieces of 95 bytes and one that is shorter. -/
theorem pieces_induction {motive : List UInt8 → Prop}
    (short : ∀ text : List UInt8, text.length ≤ 94 → motive text)
    (long : ∀ piece text : List UInt8, piece.length = 95 → motive text → motive (piece ++ text))
    (text : List UInt8) : motive text := by
  induction length : text.length using Nat.strong_induction_on generalizing text with
  | _ n ih =>
      by_cases fits : text.length ≤ 94
      · exact short text fits
      · rw [← List.take_append_drop 95 text]
        refine long _ _ (by rw [List.length_take]; omega) (ih _ ?_ _ rfl)
        rw [List.length_drop]
        omega

/-- The chunks of a line and the chunks of what follows. -/
theorem chunks_append {text : List UInt8} (oneLine : 10 ∉ text) (rest : List UInt8) :
    chunks (text ++ 10 :: rest) = chunks (text ++ [10]) ++ chunks rest := by
  induction text using pieces_induction with
  | short text fits =>
      rw [chunks_line oneLine fits, chunks_line oneLine fits, chunks_nil]
      rfl
  | long piece text full ih =>
      rw [List.mem_append, not_or] at oneLine
      rw [List.append_assoc, List.append_assoc, chunks_full oneLine.1 full,
        chunks_full oneLine.1 full, ih oneLine.2]
      rfl

theorem chunks_lines (lines : List TextLine) (rest : List UInt8) :
    chunks ((lines.flatMap fun line => line.text ++ [10]) ++ rest) =
      (lines.flatMap fun line => chunks (line.text ++ [10])) ++ chunks rest := by
  induction lines with
  | nil => rfl
  | cons line lines ih =>
      rw [List.flatMap_cons, List.append_assoc, List.append_assoc, List.singleton_append,
        chunks_append line.oneLine, ih, List.flatMap_cons, List.append_assoc]

def start (stack : Memory UInt8) : Loading := ⟨stack, [], rootSection⟩

/-- The passes of the loop over the pieces of a line. -/
def loadText (s : Loading) (line : TextLine) : Loading :=
  (chunks (line.text ++ [10])).foldl loadLine s

/-- A piece without a newline only fills the buffer. -/
theorem loadLine_unended (s : Loading) {piece : List UInt8} (short : piece.length ≤ 95)
    (unended : 10 ∉ piece) :
    loadLine s piece = ⟨s.mem.write 0 (piece ++ [0]), s.before, s.current⟩ := by
  unfold loadLine
  rw [parseLine_skipped s.mem short (fun newline => unended (List.dropLast_subset _ newline))
    fun both => unended (List.mem_of_getLast? both.2)]

theorem load_rest (s : Loading) {rest : List UInt8} (unended : 10 ∉ rest) :
    ((chunks rest).foldl loadLine s).sections = s.sections := by
  induction rest using pieces_induction generalizing s with
  | short rest fits =>
      by_cases empty : rest = []
      · subst empty
        rfl
      · rw [chunks_end unended (by omega) empty, List.foldl_cons, loadLine_unended s (by omega) unended]
        rfl
  | long piece rest full ih =>
      rw [List.mem_append, not_or] at unended
      rw [chunks_full unended.1 full, List.foldl_cons, ih _ unended.2,
        loadLine_unended s (by omega) unended.1]
      rfl

/-- A file is loaded line by line; what follows the last newline brings nothing. -/
theorem load_file (stack : Memory UInt8) (f : TextFile) :
    loadKeyfile stack f.bytes = (f.lines.foldl loadText (start stack)).sections := by
  change ((chunks ((f.lines.flatMap fun line => line.text ++ [10]) ++ f.rest.text)).foldl loadLine
    (start stack)).sections = _
  rw [chunks_lines, List.foldl_append, load_rest _ f.rest.oneLine, List.foldl_flatMap]
  rfl

theorem loadText_short (s : Loading) {line : TextLine} (fits : line.text.length ≤ 94) :
    loadText s line = loadLine s (line.text ++ [10]) := by
  unfold loadText
  rw [chunks_line line.oneLine fits, chunks_nil]
  rfl

/-- What a line is cut down to. -/
def lastPiece (text : List UInt8) : List UInt8 := text.drop (text.length - text.length % 95)

/-- The buffer when the last piece of a line comes: the piece before it is in it. -/
def filled (mem : Memory UInt8) (text : List UInt8) : Memory UInt8 :=
  if text.length < 95 then mem
  else mem.write 0 ((text.drop (text.length - text.length % 95 - 95)).take 95 ++ [0])

theorem lastPiece_append {piece : List UInt8} (full : piece.length = 95) (text : List UInt8) :
    lastPiece (piece ++ text) = lastPiece text := by
  unfold lastPiece
  have shift : 95 + text.length - text.length % 95 - 95 = text.length - text.length % 95 := by
    omega
  rw [List.length_append, full, Nat.add_mod_left, List.drop_append, full,
    List.drop_eq_nil_of_le (by omega), List.nil_append, shift]

theorem filled_append (mem : Memory UInt8) {piece : List UInt8} (full : piece.length = 95)
    (text : List UInt8) :
    filled (mem.write 0 (piece ++ [0])) text = filled mem (piece ++ text) := by
  unfold filled
  rw [List.length_append, full, Nat.add_mod_left, if_neg (show ¬ 95 + text.length < 95 by omega)]
  by_cases fits : text.length < 95
  · rw [if_pos fits, Nat.mod_eq_of_lt fits]
    have front : (piece ++ text).take 95 = piece := by
      rw [← full]
      exact List.take_left
    rw [show 95 + text.length - text.length - 95 = 0 by omega, List.drop_zero, front]
  · rw [if_neg fits, mem.write_write 0]
    · have behind : (piece ++ text).drop (95 + text.length - text.length % 95 - 95) =
          text.drop (text.length - text.length % 95 - 95) := by
        have shift : 95 + text.length - text.length % 95 - 95 - 95 =
            text.length - text.length % 95 - 95 := by
          omega
        rw [List.drop_append, full, List.drop_eq_nil_of_le (by omega), List.nil_append, shift]
      rw [behind]
    · rw [List.length_append, List.length_append, full, List.length_take, List.length_drop]
      omega

/-- Of a line only the last piece can bring something. -/
theorem load_pieces (s : Loading) {text : List UInt8} (oneLine : 10 ∉ text) :
    (chunks (text ++ [10])).foldl loadLine s =
      loadLine ⟨filled s.mem text, s.before, s.current⟩ (lastPiece text ++ [10]) := by
  induction text using pieces_induction generalizing s with
  | short text fits =>
      have whole : lastPiece text = text := by
        unfold lastPiece
        rw [Nat.mod_eq_of_lt (by omega), Nat.sub_self, List.drop_zero]
      have same : filled s.mem text = s.mem := if_pos (by omega)
      rw [chunks_line oneLine fits, chunks_nil, whole, same]
      rfl
  | long piece text full ih =>
      rw [List.mem_append, not_or] at oneLine
      rw [lastPiece_append full, ← filled_append s.mem full]
      refine Eq.trans ?_ (ih ⟨s.mem.write 0 (piece ++ [0]), s.before, s.current⟩ oneLine.2)
      rw [List.append_assoc, chunks_full oneLine.1 full, List.foldl_cons,
        loadLine_unended s (by omega) oneLine.1]

/-! ## What a line brings -/

/-- The sections once an entry is put onto them. -/
def place (before : List KeysectionT) (current : KeysectionT) : Entry → List KeysectionT
  | .skip => before ++ [current]
  | .header id => before ++ [current] ++ [⟨id, []⟩]
  | .key id value => before ++ [makeKeydata current id value]

theorem loadLine_sections (s : Loading) (chunk : List UInt8) :
    (loadLine s chunk).sections =
      place s.before s.current (parseLine (s.mem.write 0 (chunk ++ [0]))).2 := by
  unfold loadLine
  generalize parseLine (s.mem.write 0 (chunk ++ [0])) = parsed
  obtain ⟨mem, entry⟩ := parsed
  cases entry with
  | skip => rfl
  | header id => rfl
  | key id value => rfl

theorem reading_injective : Function.Injective Entry.reading := by
  intro a b same
  cases a with
  | skip =>
      cases b with
      | skip => rfl
      | header id => cases same
      | key id value => cases same
  | header id =>
      cases b with
      | skip => cases same
      | header id' => exact congrArg Entry.header (CString.ext (Reading.header.inj same))
      | key id value => cases same
  | key id value =>
      cases b with
      | skip => cases same
      | header id => cases same
      | key id' value' =>
          obtain ⟨ids, values⟩ := Reading.key.inj same
          rw [CString.ext ids, CString.ext values]

/-- Different entries make different sections. -/
theorem place_injective (before : List KeysectionT) (current : KeysectionT) :
    Function.Injective (place before current) := by
  have longer (id : CString) (group : KeysectionT) :
      before ++ [current] ++ [⟨id, []⟩] ≠ before ++ [group] := fun same => by
    have lengths := congrArg List.length same
    simp at lengths
  have more (id value : CString) : makeKeydata current id value ≠ current := fun same => by
    have lengths := congrArg (fun group => group.keys.length) same
    simp [makeKeydata] at lengths
  intro a b same
  cases a with
  | skip =>
      cases b with
      | skip => rfl
      | header id => exact absurd same.symm (longer id current)
      | key id value =>
          have equal := List.singleton_inj.mp (List.append_cancel_left same)
          exact absurd equal.symm (more id value)
  | header id =>
      cases b with
      | skip => exact absurd same (longer id current)
      | header id' =>
          have equal := List.singleton_inj.mp (List.append_cancel_left same)
          exact congrArg Entry.header (congrArg KeysectionT.id equal)
      | key id' value => exact absurd same (longer id _)
  | key id value =>
      cases b with
      | skip =>
          have equal := List.singleton_inj.mp (List.append_cancel_left same)
          exact absurd equal (more id value)
      | header id' => exact absurd same.symm (longer id' _)
      | key id' value' =>
          have equal := List.singleton_inj.mp (List.append_cancel_left same)
          have keys := congrArg KeysectionT.keys equal
          obtain ⟨ids, values⟩ := KeydataT.mk.inj (List.cons_eq_cons.mp keys).1
          rw [ids, values]

theorem sections_inj {s s' : Loading} (same : s.sections = s'.sections) :
    s.before = s'.before ∧ s.current = s'.current := by
  obtain ⟨before, current⟩ := List.append_inj' same rfl
  exact ⟨before, List.singleton_inj.mp current⟩

/-- Two loads with the same sections go on with the same sections exactly when their
chunks say the same. -/
theorem loadLine_same_iff {s s' : Loading} (same : s.sections = s'.sections)
    (chunk chunk' : List UInt8) :
    (loadLine s chunk).sections = (loadLine s' chunk').sections ↔
      (parseLine (s.mem.write 0 (chunk ++ [0]))).2.reading =
        (parseLine (s'.mem.write 0 (chunk' ++ [0]))).2.reading := by
  obtain ⟨before, current⟩ := sections_inj same
  rw [loadLine_sections, loadLine_sections, before, current,
    (place_injective s'.before s'.current).eq_iff, reading_injective.eq_iff]

/-- The sections stay the same exactly when a chunk says nothing. -/
theorem loadLine_still_iff (s : Loading) (chunk : List UInt8) :
    (loadLine s chunk).sections = s.sections ↔
      (parseLine (s.mem.write 0 (chunk ++ [0]))).2.reading = .skip := by
  have still : s.sections = place s.before s.current .skip := rfl
  have skip : Reading.skip = Entry.skip.reading := rfl
  rw [loadLine_sections, still, (place_injective s.before s.current).eq_iff, skip,
    reading_injective.eq_iff]

end CprFormal.Keyfile.Files
