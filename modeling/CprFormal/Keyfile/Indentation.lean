import CprFormal.Keyfile.Files

/-!
# White space in front of lines

Spaces and tabs in front of a line do not change what a key says, but a section begins
only when its bracket is the first byte of the line, or when a bracket happens to be in
the buffer behind an indented line.
-/

namespace CprFormal.Keyfile.Indentation

open CprFormal.Library.FlatMemory
open CprFormal.Strchar.Ctype
open CprFormal.Keyfile.Model CprFormal.Keyfile.Grammar CprFormal.Keyfile.Lines
open CprFormal.Keyfile.LineBuffer CprFormal.Keyfile.Files

/-- Spaces or tabs are inserted at the beginning of a line. -/
def Indents (line line' : TextLine) : Prop :=
  ∃ blanks : List UInt8, (∀ b ∈ blanks, b = 32 ∨ b = 9) ∧ line'.text = blanks ++ line.text

/-- A file that is the other one with spaces or tabs at the beginning of its lines. -/
structure Indented (f g : TextFile) : Prop where
  lines : List.Forall₂ Indents f.lines g.lines
  rest : Indents f.rest g.rest

/-- All lines have at most 94 bytes. -/
structure Short (f : TextFile) : Prop where
  lines : ∀ line ∈ f.lines, line.text.length ≤ 94
  rest : f.rest.text.length ≤ 94

/-- Enough white space in front makes the line look for its closing bracket behind the
newline and the NUL that it stores. -/
def Openable (text : List UInt8) : Prop :=
  0 ∉ text ∧ (trimmed text).head? = some 91 ∧
    (trimmed text).length + 2 * (text.length - (rtrim text).length) ≤ 91

instance (text : List UInt8) : Decidable (Openable text) := by
  unfold Openable
  infer_instance

/-- A line that cannot be made to look behind itself and is no section that could be
indented. -/
def Steady (text : List UInt8) : Prop :=
  ¬ Openable text ∧ (0 ∉ text → Heading (rtrim text) → text.length = 94)

instance (text : List UInt8) : Decidable (Steady text) := by
  unfold Steady
  infer_instance

theorem rtrim_ne_nil {text : List UInt8} {b : UInt8} (first : (trimmed text).head? = some b) :
    rtrim text ≠ [] := by
  intro empty
  unfold trimmed at first
  rw [empty] at first
  cases first

theorem rtrim_front (front : List UInt8) {text : List UInt8} (some_ : rtrim text ≠ []) :
    rtrim (front ++ text) = front ++ rtrim text := by
  induction text using List.reverseRecOn with
  | nil => exact absurd rfl some_
  | append_singleton text b ih =>
      rw [← List.append_assoc]
      cases space : isspace b with
      | true =>
          rw [rtrim_space text space] at some_ ⊢
          rw [rtrim_space _ space, ih some_]
      | false => rw [rtrim_ink _ space, rtrim_ink _ space, List.append_assoc]

section Blanks

variable {blanks : List UInt8} (blank : ∀ b ∈ blanks, isspace b = true)

include blank

theorem ltrim_blanks (text : List UInt8) : ltrim (blanks ++ text) = ltrim text :=
  List.dropWhile_append_of_pos blank

theorem trimmed_blanks (text : List UInt8) : trimmed (blanks ++ text) = trimmed text := by
  unfold trimmed
  by_cases empty : rtrim text = []
  · have all_blank : ∀ b ∈ text, isspace b = true := List.rdropWhile_eq_nil_iff.mp empty
    have none_ : rtrim (blanks ++ text) = [] := List.rdropWhile_eq_nil_iff.mpr fun b member =>
      (List.mem_append.mp member).elim (blank b) (all_blank b)
    rw [empty, none_]
  · rw [rtrim_front blanks empty, ltrim_blanks blank]

theorem indent_blanks (text : List UInt8) :
    indent (blanks ++ text) = blanks.length + indent text := by
  unfold indent
  rw [List.takeWhile_append_of_pos blank, List.length_append]

/-- White space in front makes no line openable and none that is not. -/
theorem openable_blanks (text : List UInt8) : Openable (blanks ++ text) ↔ Openable text := by
  have nonNul : 0 ∉ blanks := fun nul => absurd (blank 0 nul) (by decide)
  unfold Openable
  rw [trimmed_blanks blank, List.mem_append, or_iff_right nonNul]
  refine and_congr_right fun _ => and_congr_right fun opening => ?_
  rw [rtrim_front blanks (rtrim_ne_nil opening), List.length_append, List.length_append,
    Nat.add_sub_add_left]

end Blanks

theorem openable_of_stray {text : List UInt8} (short : text.length ≤ 94) (stray : Stray text) :
    Openable text := by
  obtain ⟨nonNul, opening, far⟩ := stray
  have lengths := indent_add (rtrim text)
  have within := rtrim_length_le text
  refine ⟨nonNul, opening, ?_⟩
  unfold closing at far
  unfold trimmed
  omega

theorem readQuiet_text {text : List UInt8} (nonNul : 0 ∉ text)
    (other : (trimmed text).head? ≠ some 91) : readQuiet text = readText (trimmed text) := by
  unfold readQuiet
  rw [if_neg nonNul, if_neg other]
  split
  · rename_i none_
    have same : trimmed text = rtrim text := ltrim_of_indent none_
    rw [same]
  · rfl

/-- An indented section says nothing. -/
theorem readQuiet_indented {text : List UInt8} (opening : (trimmed text).head? = some 91)
    (blank : indent (rtrim text) ≠ 0) : readQuiet text = .skip := by
  refine (readQuiet_skip_iff text).mpr (.inr ⟨fun heading => ?_, fun assigns => ?_⟩)
  · exact absurd (rtrim_blank blank 91 heading.1) (by decide)
  · exact absurd (assigns.1 91 opening) (by decide)

theorem Indents.blank {line line' : TextLine} (indents : Indents line line') :
    ∃ blanks : List UInt8, (∀ b ∈ blanks, isspace b = true) ∧
      line'.text = blanks ++ line.text := by
  obtain ⟨blanks, chosen, text⟩ := indents
  refine ⟨blanks, fun b member => ?_, text⟩
  rcases chosen b member with rfl | rfl
  · rfl
  · rfl

theorem Indents.length_le {line line' : TextLine} (indents : Indents line line') :
    line.text.length ≤ line'.text.length := by
  obtain ⟨blanks, _, text⟩ := indents
  rw [text, List.length_append]
  exact Nat.le_add_left _ _

/-- What a steady line says does not depend on the white space in front of it. -/
theorem readQuiet_blanks {blanks text : List UInt8} (blank : ∀ b ∈ blanks, isspace b = true)
    (short : (blanks ++ text).length ≤ 94) (steady : Steady text) :
    readQuiet (blanks ++ text) = readQuiet text := by
  have nonNul : 0 ∉ blanks := fun nul => absurd (blank 0 nul) (by decide)
  have same := trimmed_blanks blank text
  by_cases nul : 0 ∈ text
  · rw [(readQuiet_skip_iff text).mpr (.inl nul)]
    exact (readQuiet_skip_iff _).mpr (.inl (List.mem_append_right _ nul))
  · have clean : 0 ∉ blanks ++ text := List.not_mem_append nonNul nul
    by_cases opening : (trimmed text).head? = some 91
    · cases blanks with
      | nil => rfl
      | cons b blanks =>
          have moved : indent (rtrim ((b :: blanks) ++ text)) ≠ 0 := by
            rw [rtrim_front _ (rtrim_ne_nil opening), indent_blanks blank, List.length_cons]
            omega
          rw [readQuiet_indented (by rwa [same]) moved]
          refine ((readQuiet_skip_iff text).mpr (.inr ⟨fun heading => ?_, fun assigns => ?_⟩)).symm
          · have full := steady.2 nul heading
            rw [List.length_append, List.length_cons] at short
            omega
          · exact absurd (assigns.1 91 opening) (by decide)
    · rw [readQuiet_text nul opening, readQuiet_text clean (by rwa [same]), same]

/-- A steady line says the same with white space in front of it, whatever the buffer
holds. -/
theorem readLine_blanks {blanks text : List UInt8} (blank : ∀ b ∈ blanks, isspace b = true)
    (short : (blanks ++ text).length ≤ 94) (steady : Steady text) (mem mem' : Memory UInt8) :
    readLine mem' (blanks ++ text) = readLine mem text := by
  have shorter : text.length ≤ 94 := by
    rw [List.length_append] at short
    omega
  have lost : ¬ Finds mem text := fun finds => steady.1 (openable_of_stray shorter finds.1)
  have lost' : ¬ Finds mem' (blanks ++ text) := fun finds =>
    steady.1 ((openable_blanks blank text).mp (openable_of_stray short finds.1))
  rw [readLine_eq, readLine_eq, if_neg lost, if_neg lost', readQuiet_blanks blank short steady]

/-- Steady lines bring the same sections with white space in front of them. -/
theorem load_blanks {lines lines' : List TextLine} (indents : List.Forall₂ Indents lines lines')
    (short : ∀ line ∈ lines', line.text.length ≤ 94) (steady : ∀ line ∈ lines, Steady line.text)
    {s s' : Loading} (same : s.sections = s'.sections) :
    (lines.foldl loadText s).sections = (lines'.foldl loadText s').sections := by
  induction indents generalizing s s' with
  | nil => exact same
  | @cons line line' lines lines' first later ih =>
      obtain ⟨short, short_later⟩ := List.forall_mem_cons.mp short
      obtain ⟨steady, steady_later⟩ := List.forall_mem_cons.mp steady
      have shorter := Nat.le_trans first.length_le short
      rw [List.foldl_cons, List.foldl_cons]
      refine ih short_later steady_later ?_
      rw [loadText_short s shorter, loadText_short s' short, loadLine_same_iff same,
        parseLine_reading s.mem line.oneLine shorter, parseLine_reading s'.mem line'.oneLine short]
      obtain ⟨blanks, blank, text⟩ := first.blank
      rw [text] at short ⊢
      exact (readLine_blanks blank short steady s.mem s'.mem).symm

/-! ## The buffer behind a line -/

theorem parseHeader_cleared (mem : Memory UInt8) (lp len i : Nat) :
    (parseHeader mem lp len).1 i = mem i ∨ (parseHeader mem lp len).1 i = 0 := by
  unfold parseHeader
  dsimp only
  split
  · exact .inl rfl
  · generalize skipSpace mem (lp + 1) + (backOverSpace mem lp len -
      (skipSpace mem (lp + 1) - (lp + 1))) = w
    by_cases here : i = w
    · rw [here]
      exact .inr (mem.set_same w 0)
    · exact .inl (mem.set_other 0 here)

/-- Behind its newline and its NUL a line changes nothing in the buffer, unless it finds
a bracket there. -/
theorem parseLine_beyond (mem : Memory UInt8) {text : List UInt8} (oneLine : 10 ∉ text)
    (short : text.length ≤ 94) {i : Nat} (behind : text.length + 1 < i) :
    (parseLine (mem.write 0 (text ++ [10] ++ [0]))).1 i = mem i ∨
      (Finds mem text ∧ (parseLine (mem.write 0 (text ++ [10] ++ [0]))).1 i = 0) := by
  by_cases nul : 0 ∈ text
  · rw [parseLine_nul mem oneLine short nul]
    refine .inl (mem.write_outside _ (.inr ?_))
    rw [List.length_append, List.length_append, List.length_singleton, List.length_singleton]
    omega
  · obtain ⟨after, trim, _, _, parsed⟩ := parseLine_trims mem nul short
    have within := rtrim_length_le text
    have lengths := indent_add (rtrim text)
    have kept : after i = mem i := trim.beyond i behind
    rw [parsed]
    unfold parseTrimmed
    split
    · exact .inl kept
    · split
      · rename_i bracket
        by_cases stray : text.length + 1 < closing text
        · have opening : (trimmed text).head? = some 91 := trim.inner.head_eq bracket.1 (by decide)
          have found : mem (closing text) = 93 := (trim.beyond _ stray).symm.trans bracket.2
          have cleared := parseHeader_cleared after (indent (rtrim text)) ((rtrim text).length - 1) i
          exact cleared.imp (fun same => same.trans kept)
            fun zero => ⟨⟨⟨nul, opening, stray⟩, found⟩, zero⟩
        · have near := headerAccesses_le bracket.2
          refine .inl ((parseHeader_untouched fun member => ?_).trans kept)
          have inside := near i member
          unfold closing at stray
          omega
      · split
        · exact .inl kept
        · have zero := trim.clear (rtrim text).length (Nat.le_refl _) (by omega)
          have near := assignmentAccesses_le zero
            (show indent (rtrim text) ≤ (rtrim text).length by omega)
          refine .inl ((parseAssignment_untouched fun member => ?_).trans kept)
          have inside := near i member
          omega

/-- A line is loaded into the buffer that the passes before it have left. -/
theorem loadLine_mem (s : Loading) (chunk : List UInt8) :
    (loadLine s chunk).mem = (parseLine (s.mem.write 0 (chunk ++ [0]))).1 := by
  unfold loadLine
  generalize parseLine (s.mem.write 0 (chunk ++ [0])) = parsed
  obtain ⟨mem, entry⟩ := parsed
  cases entry with
  | skip => rfl
  | header id => rfl
  | key id value => rfl

/-- No bracket is in the memory behind the buffer. -/
def Clean (mem : Memory UInt8) : Prop := ∀ i, 96 ≤ i → mem i ≠ 93

theorem loadText_clean {s : Loading} {line : TextLine} (short : line.text.length ≤ 94)
    (clean : Clean s.mem) : Clean (loadText s line).mem := by
  intro i behind
  rw [loadText_short s short, loadLine_mem]
  rcases parseLine_beyond s.mem line.oneLine short (show line.text.length + 1 < i by omega)
    with same | ⟨_, zero⟩
  · rw [same]
    exact clean i behind
  · rw [zero]
    decide

/-- Lines that do not look behind themselves leave the memory behind the buffer as it is. -/
theorem load_behind {lines : List TextLine} (short : ∀ line ∈ lines, line.text.length ≤ 94)
    (near : ∀ line ∈ lines, ¬ Stray line.text) (s : Loading) {i : Nat} (behind : 96 ≤ i) :
    (lines.foldl loadText s).mem i = s.mem i := by
  induction lines generalizing s with
  | nil => rfl
  | cons line lines ih =>
      obtain ⟨short, short_later⟩ := List.forall_mem_cons.mp short
      obtain ⟨near, near_later⟩ := List.forall_mem_cons.mp near
      rw [List.foldl_cons, ih short_later near_later, loadText_short s short, loadLine_mem]
      rcases parseLine_beyond s.mem line.oneLine short (show line.text.length + 1 < i by omega)
        with same | ⟨finds, _⟩
      · exact same
      · exact absurd finds.1 near

/-- How many sections a reading begins. -/
def opens : Reading → Nat
  | .header _ => 1
  | _ => 0

theorem opens_le (reading : Reading) : opens reading ≤ 1 := by
  cases reading with
  | skip => exact Nat.zero_le _
  | header id => exact Nat.le_refl _
  | key id value => exact Nat.zero_le _

theorem loadText_length (s : Loading) {line : TextLine} (short : line.text.length ≤ 94) :
    (loadText s line).sections.length =
      s.sections.length + opens (readLine s.mem line.text) := by
  rw [loadText_short s short, loadLine_sections, ← parseLine_reading s.mem line.oneLine short]
  cases (parseLine (s.mem.write 0 (line.text ++ [10] ++ [0]))).2 with
  | skip => simp [place, Loading.sections, Entry.reading, opens]
  | header id => simp [place, Loading.sections, Entry.reading, opens]
  | key id value => simp [place, Loading.sections, Entry.reading, opens]

/-- A line that does not look for its bracket inside the buffer. -/
structure Guarded (line : TextLine) : Prop where
  short : line.text.length ≤ 94
  far : Stray line.text → 96 ≤ closing line.text

theorem Guarded.lost {line : TextLine} (guarded : Guarded line) {mem : Memory UInt8}
    (clean : Clean mem) : ¬ Finds mem line.text := fun finds =>
  clean _ (guarded.far finds.1) finds.2

/-- No buffer makes lines begin fewer sections than one without a bracket behind it. -/
theorem load_fewest {lines : List TextLine} (guarded : ∀ line ∈ lines, Guarded line)
    {s s' : Loading} (clean : Clean s.mem) {d : Nat}
    (fewer : s.sections.length + d ≤ s'.sections.length) :
    Clean (lines.foldl loadText s).mem ∧
      (lines.foldl loadText s).sections.length + d ≤ (lines.foldl loadText s').sections.length := by
  induction lines generalizing s s' with
  | nil => exact ⟨clean, fewer⟩
  | cons line lines ih =>
      obtain ⟨first, later⟩ := List.forall_mem_cons.mp guarded
      refine ih later (loadText_clean first.short clean) ?_
      have more : opens (readLine s.mem line.text) ≤ opens (readLine s'.mem line.text) := by
        rw [readLine_eq s.mem, readLine_eq s'.mem, if_neg (first.lost clean)]
        split
        · exact opens_le _
        · exact Nat.le_refl _
      rw [loadText_length s first.short, loadText_length s' first.short]
      omega

/-- Between the same lines, one that begins a section makes more of them than one that
does not. -/
theorem load_apart {front back : List TextLine} {line line' : TextLine}
    (guarded : ∀ other ∈ front ++ back, Guarded other) (short : line.text.length ≤ 94)
    (short' : line'.text.length ≤ 94) {s s' : Loading} (clean : Clean s.mem)
    (fewer : s.sections.length ≤ s'.sections.length)
    (quiet : ∀ mem, Clean mem → opens (readLine mem line.text) = 0)
    (opened : opens (readLine (front.foldl loadText s').mem line'.text) = 1) :
    ((front ++ line :: back).foldl loadText s).sections.length <
      ((front ++ line' :: back).foldl loadText s').sections.length := by
  have before := load_fewest (d := 0) (fun other member =>
    guarded other (List.mem_append_left back member)) clean fewer
  rw [List.foldl_append, List.foldl_append, List.foldl_cons, List.foldl_cons]
  refine (load_fewest (d := 1) (fun other member =>
    guarded other (List.mem_append_right front member)) (loadText_clean short before.1) ?_).2
  rw [loadText_length _ short, loadText_length _ short', quiet _ before.1, opened]
  have less := before.2
  omega

/-! ## Every indentation -/

/-- Blanks in front of a line. -/
def blanksBefore (n : Nat) (line : TextLine) : TextLine where
  text := List.replicate n 32 ++ line.text
  oneLine := by
    refine List.not_mem_append (fun newline => ?_) line.oneLine
    exact absurd (List.eq_of_mem_replicate newline) (by decide)

/-- An openable line, filled with blanks in front. -/
def opened (line : TextLine) : TextLine :=
  if Openable line.text then blanksBefore (94 - line.text.length) line else line

theorem indents_blanks (n : Nat) (line : TextLine) : Indents line (blanksBefore n line) :=
  ⟨List.replicate n 32, fun _ member => .inl (List.eq_of_mem_replicate member), rfl⟩

theorem indents_refl (line : TextLine) : Indents line line := ⟨[], nofun, rfl⟩

theorem indents_opened (line : TextLine) : Indents line (opened line) := by
  unfold opened
  split
  · exact indents_blanks _ line
  · exact indents_refl line

/-- An openable line that is filled looks for its bracket behind the buffer. -/
theorem opened_far {line : TextLine} (short : line.text.length ≤ 94)
    (openable : Openable line.text) :
    (opened line).text.length = 94 ∧ Stray (opened line).text ∧
      96 ≤ closing (opened line).text := by
  have blank : ∀ b ∈ List.replicate (94 - line.text.length) (32 : UInt8), isspace b = true := by
    intro b member
    rw [List.eq_of_mem_replicate member]
    rfl
  have text : (opened line).text = List.replicate (94 - line.text.length) 32 ++ line.text := by
    unfold opened
    rw [if_pos openable]
    rfl
  obtain ⟨nonNul, opening, near⟩ := openable
  have some_ := rtrim_ne_nil opening
  have length : (opened line).text.length = 94 := by
    rw [text, List.length_append, List.length_replicate]
    omega
  have lengths := indent_add (rtrim line.text)
  have within := rtrim_length_le line.text
  have far : 96 ≤ closing (opened line).text := by
    unfold closing
    rw [text, rtrim_front _ some_, indent_blanks blank, List.length_append, List.length_replicate]
    unfold trimmed at near
    have positive := List.length_pos_of_ne_nil (ltrim_rtrim_ne_nil some_)
    omega
  refine ⟨length, ⟨?_, ?_, by omega⟩, far⟩
  · rw [text]
    exact List.not_mem_append (fun nul => absurd (blank 0 nul) (by decide)) nonNul
  · rw [text, trimmed_blanks blank]
    exact opening

theorem guarded_closed {line : TextLine} (short : line.text.length ≤ 94)
    (closed : ¬ Openable line.text) : Guarded line where
  short := short
  far stray := absurd (openable_of_stray short stray) closed

theorem guarded_opened {line : TextLine} (short : line.text.length ≤ 94) :
    Guarded (opened line) := by
  by_cases openable : Openable line.text
  · obtain ⟨length, _, far⟩ := opened_far short openable
    exact ⟨Nat.le_of_eq length, fun _ => far⟩
  · have same : opened line = line := if_neg openable
    rw [same]
    exact guarded_closed short openable

/-- The file with white space in front of a line and of those behind it. -/
theorem indented_split {f : TextFile} {front back back' : List TextLine} {line line' : TextLine}
    (split : f.lines = front ++ line :: back) (first : Indents line line')
    (later : List.Forall₂ Indents back back') :
    Indented f ⟨front ++ line' :: back', f.rest⟩ where
  lines := by
    rw [split]
    have same : List.Forall₂ Indents front front :=
      List.forall₂_same.mpr fun other _ => indents_refl other
    exact List.rel_append same (.cons first later)
  rest := indents_refl f.rest

theorem short_split {front back : List TextLine} {line rest : TextLine}
    (rest_fits : rest.text.length ≤ 94) (guarded : ∀ other ∈ front ++ back, Guarded other)
    (fits : line.text.length ≤ 94) : Short ⟨front ++ line :: back, rest⟩ where
  lines other member := by
    rcases List.mem_append.mp member with early | late
    · exact (guarded other (List.mem_append_left back early)).short
    · rcases List.mem_cons.mp late with rfl | later
      · exact fits
      · exact (guarded other (List.mem_append_right front later)).short
  rest := rest_fits

/-- Indentation changes nothing in a file. -/
def Ignores (f : TextFile) : Prop :=
  ∀ g, Indented f g → Short g → ∀ stack stack' : Memory UInt8,
    loadKeyfile stack' g.bytes = loadKeyfile stack f.bytes

/-- A memory of zeros. -/
def zeros : Memory UInt8 := fun _ => 0

/-- A memory with one closing bracket in it. -/
def bracketAt (i : Nat) : Memory UInt8 := zeros.set i 93

theorem zeros_clean : Clean zeros := fun _ _ => show (0 : UInt8) ≠ 93 by decide

/-- A line that looks behind the buffer makes more sections when a bracket is there. -/
theorem load_bracket {front back : List TextLine} {line : TextLine}
    (guarded : ∀ other ∈ front ++ back, Guarded other)
    (near : ∀ other ∈ front, ¬ Stray other.text) (short : line.text.length ≤ 94)
    (stray : Stray line.text) (far : 96 ≤ closing line.text) :
    ((front ++ line :: back).foldl loadText (start zeros)).sections.length <
      ((front ++ line :: back).foldl loadText (start (bracketAt (closing line.text)))).sections.length := by
  have kept : (front.foldl loadText (start (bracketAt (closing line.text)))).mem
      (closing line.text) = 93 :=
    (load_behind (fun other member => (guarded other (List.mem_append_left back member)).short)
      near _ far).trans (zeros.set_same (closing line.text) 93)
  refine load_apart guarded short short zeros_clean (Nat.le_refl _) (fun mem clean => ?_) ?_
  · have lost : ¬ Finds mem line.text := fun finds => clean _ far finds.2
    rw [readLine_eq, if_neg lost, readQuiet_stray stray]
    rfl
  · rw [readLine_eq, if_pos ⟨stray, kept⟩]
    rfl

/-- A file with an openable line loads differently when a bracket is where the filled
line looks for one. -/
theorem Ignores.closed {f : TextFile} (short : Short f) (ignores : Ignores f) :
    ∀ line ∈ f.lines, ¬ Openable line.text := by
  cases found : f.lines.find? fun line => decide (Openable line.text) with
  | none =>
      intro line member openable
      exact List.find?_eq_none.mp found line member (decide_eq_true openable)
  | some line =>
      obtain ⟨openable, front, back, split, before⟩ := List.find?_eq_some_iff_append.mp found
      have fits := short.lines
      rw [split, List.forall_mem_append, List.forall_mem_cons] at fits
      obtain ⟨front_fits, fits, back_fits⟩ := fits
      obtain ⟨length, stray, far⟩ := opened_far fits (of_decide_eq_true openable)
      have closed : ∀ other ∈ front, ¬ Openable other.text := by
        intro other member open_
        have not_open := before other member
        rw [decide_eq_true open_] at not_open
        cases not_open
      have guarded : ∀ other ∈ front ++ back.map opened, Guarded other := by
        rw [List.forall_mem_append, List.forall_mem_map]
        exact ⟨fun other member => guarded_closed (front_fits other member) (closed other member),
          fun other member => guarded_opened (back_fits other member)⟩
      have indented := indented_split split (indents_opened line)
        (List.forall₂_map_right_iff.mpr
          (List.forall₂_same.mpr fun other _ => indents_opened other))
      have short' := short_split short.rest guarded (Nat.le_of_eq length)
      have less := load_bracket guarded (fun other member stray =>
        closed other member (openable_of_stray (front_fits other member) stray))
        (Nat.le_of_eq length) stray far
      have same := (ignores _ indented short' zeros zeros).trans
        (ignores _ indented short' zeros (bracketAt (closing (opened line).text))).symm
      rw [load_file, load_file] at same
      exact absurd (congrArg List.length same) (Nat.ne_of_lt less)

theorem readText_heading {text : List UInt8} (heading : Heading text) :
    opens (readText text) = 1 := by
  cases text with
  | nil => cases heading.1
  | cons b rest =>
      obtain ⟨first, last, named⟩ := heading
      have thick : ¬ (rtrim rest.dropLast).length < 2 := Nat.not_lt.mpr named
      rw [readText_cons, if_pos ⟨Option.some_inj.mp first, last⟩]
      unfold readHeader
      rw [if_neg thick]
      rfl

/-- A section begins where its line does. -/
theorem indent_heading {text : List UInt8} (heading : Heading (rtrim text)) :
    indent (rtrim text) = 0 := by
  by_contra moved
  exact absurd (rtrim_blank moved 91 heading.1) (by decide)

/-- A section that has a blank put in front of it is lost. -/
theorem load_heading {front back : List TextLine} {line : TextLine}
    (guarded : ∀ other ∈ front ++ back, Guarded other) (room : line.text.length < 94)
    (closed : ¬ Openable line.text) (nonNul : 0 ∉ line.text) (heading : Heading (rtrim line.text)) :
    ((front ++ blanksBefore 1 line :: back).foldl loadText (start zeros)).sections.length <
      ((front ++ line :: back).foldl loadText (start zeros)).sections.length := by
  have text : (blanksBefore 1 line).text = [32] ++ line.text := rfl
  have length : (blanksBefore 1 line).text.length ≤ 94 := by
    rw [text, List.length_append, List.length_singleton]
    omega
  have blank : ∀ b ∈ ([32] : List UInt8), isspace b = true := by
    intro b member
    rw [List.mem_singleton.mp member]
    rfl
  have unmoved := indent_heading heading
  have opening : (trimmed line.text).head? = some 91 := by
    have whole : trimmed line.text = rtrim line.text := ltrim_of_indent unmoved
    rw [whole]
    exact heading.1
  refine load_apart guarded length (Nat.le_of_lt room) zeros_clean (Nat.le_refl _)
    (fun mem _ => ?_) ?_
  · have moved : indent (rtrim ([32] ++ line.text)) ≠ 0 := by
      rw [rtrim_front _ (rtrim_ne_nil opening), indent_blanks blank, List.length_singleton]
      omega
    have lost : ¬ Finds mem (blanksBefore 1 line).text := fun finds =>
      closed ((openable_blanks blank line.text).mp (openable_of_stray length finds.1))
    rw [readLine_eq, if_neg lost, text,
      readQuiet_indented (by rwa [trimmed_blanks blank]) moved]
    rfl
  · have lost : ¬ Finds (front.foldl loadText (start zeros)).mem line.text := fun finds =>
      closed (openable_of_stray (Nat.le_of_lt room) finds.1)
    rw [readLine_eq, if_neg lost]
    unfold readQuiet
    rw [if_neg nonNul, if_pos unmoved]
    exact readText_heading heading

theorem Ignores.full {f : TextFile} (short : Short f) (ignores : Ignores f) :
    ∀ line ∈ f.lines, 0 ∉ line.text → Heading (rtrim line.text) → line.text.length = 94 := by
  intro line member nonNul heading
  by_contra room
  have closed := ignores.closed short
  obtain ⟨front, back, split⟩ := List.append_of_mem member
  have all_fit := short.lines
  rw [split, List.forall_mem_append, List.forall_mem_cons] at closed all_fit
  obtain ⟨front_closed, closed, back_closed⟩ := closed
  obtain ⟨front_fits, fits, back_fits⟩ := all_fit
  have guarded : ∀ other ∈ front ++ back, Guarded other := List.forall_mem_append.mpr
    ⟨fun other member => guarded_closed (front_fits other member) (front_closed other member),
      fun other member => guarded_closed (back_fits other member) (back_closed other member)⟩
  have length : (blanksBefore 1 line).text.length = line.text.length + 1 := rfl
  have same : List.Forall₂ Indents back back :=
    List.forall₂_same.mpr fun other _ => indents_refl other
  have indented := indented_split split (indents_blanks 1 line) same
  have short' := short_split short.rest guarded
    (show (blanksBefore 1 line).text.length ≤ 94 by omega)
  have less := load_heading guarded (show line.text.length < 94 by omega) closed nonNul heading
  have equal := ignores _ indented short' zeros zeros
  rw [load_file, load_file, split] at equal
  exact absurd (congrArg List.length equal) (Nat.ne_of_lt less)

/-- Indentation changes nothing in a file exactly when all its lines are steady. -/
theorem indentation_iff (f : TextFile) (short : Short f) :
    Ignores f ↔ ∀ line ∈ f.lines, Steady line.text := by
  constructor
  · intro ignores line member
    exact ⟨ignores.closed short line member, ignores.full short line member⟩
  · intro steady g indented short' stack stack'
    have same : (start stack).sections = (start stack').sections := rfl
    rw [load_file, load_file]
    exact (load_blanks indented.lines short'.lines steady same).symm

/-- A file of one line. -/
def oneLineFile (text : List UInt8) (oneLine : 10 ∉ text) : TextFile where
  lines := [⟨text, oneLine⟩]
  rest := emptyLine

theorem oneLineFile_short {text : List UInt8} (oneLine : 10 ∉ text) (fits : text.length ≤ 94) :
    Short (oneLineFile text oneLine) where
  lines _ member := List.mem_singleton.mp member ▸ fits
  rest := Nat.zero_le _

/-- A key can be indented in every way. -/
theorem indentation_key : Short (oneLineFile [97, 98, 61, 49] (by decide)) ∧
    Ignores (oneLineFile [97, 98, 61, 49] (by decide)) := by
  have short := oneLineFile_short (show 10 ∉ [97, 98, 61, 49] by decide) (by decide)
  exact ⟨short, (indentation_iff _ short).mpr (by decide)⟩

/-- One blank in front of a section makes it disappear. -/
theorem indentation_loses :
    ¬ ∀ f g : TextFile, Short f → Indented f g → Short g → ∀ stack : Memory UInt8,
      loadKeyfile stack g.bytes = loadKeyfile stack f.bytes := by
  intro ignores
  have plain : 10 ∉ ([91, 97, 98, 93] : List UInt8) := by decide
  have blank : 10 ∉ ([32, 91, 97, 98, 93] : List UInt8) := by decide
  have indents : Indents ⟨_, plain⟩ ⟨_, blank⟩ := ⟨[32], by simp, rfl⟩
  have indented : Indented (oneLineFile _ plain) (oneLineFile _ blank) :=
    ⟨.cons indents .nil, indents_refl _⟩
  have same := ignores _ _ (oneLineFile_short plain (by decide)) indented
    (oneLineFile_short blank (by decide)) zeros
  have differ : loadKeyfile zeros [32, 91, 97, 98, 93, 10] ≠
      loadKeyfile zeros [91, 97, 98, 93, 10] := by
    decide +kernel
  exact differ same

end CprFormal.Keyfile.Indentation
