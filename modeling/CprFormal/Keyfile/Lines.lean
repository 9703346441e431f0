import CprFormal.Keyfile.Outline

/-!
# What a line says when it begins with white space

`load_keyfile` moves `lp` past the white space in front of a line but keeps `len`, the
index of the last byte, as it was.  The closing bracket of a section is then looked for
at `lp[len]`, as far behind the text as the text is from the start of the buffer: at the
NULs behind the line or at a byte that the line has not stored.
-/

namespace CprFormal.Keyfile.Lines

open CprFormal.Library.FlatMemory CprFormal.Library.Search CprFormal.Library.Lists
open CprFormal.Strchar.Ctype CprFormal.Strchar.Strlen
open CprFormal.Keyfile.Model CprFormal.Keyfile.Grammar CprFormal.Keyfile.Outline

/-- How many bytes of white space a text begins with. -/
def indent (text : List UInt8) : Nat := (text.takeWhile isspace).length

/-- A line without the white space around it. -/
def trimmed (text : List UInt8) : List UInt8 := ltrim (rtrim text)

/-- The index where the closing bracket of a line is looked for. -/
def closing (text : List UInt8) : Nat := indent (rtrim text) + ((rtrim text).length - 1)

/-- The opening bracket of a line is so far in that its closing bracket is looked for
behind the newline and the NUL that the line has stored. -/
def Stray (text : List UInt8) : Prop :=
  0 ∉ text ∧ (trimmed text).head? = some 91 ∧ text.length + 1 < closing text

instance (text : List UInt8) : Decidable (Stray text) := by
  unfold Stray
  infer_instance

/-- Such a line finds a bracket in the buffer. -/
def Finds (mem : Memory UInt8) (text : List UInt8) : Prop :=
  Stray text ∧ mem (closing text) = 93

instance (mem : Memory UInt8) (text : List UInt8) : Decidable (Finds mem text) := by
  unfold Finds
  infer_instance

/-- What a line says that does not begin with its text. -/
def readIndented (mem : Memory UInt8) (text : List UInt8) : Reading :=
  if (trimmed text).head? = some 91 then
    if Finds mem text then .header (((ltrim (trimmed text).tail).take 32).map toupper) else .skip
  else readText (trimmed text)

/-- What a line of at most 94 bytes says over what the buffer held before. -/
def readLine (mem : Memory UInt8) (text : List UInt8) : Reading :=
  if 0 ∈ text then .skip
  else if indent (rtrim text) = 0 then readText (rtrim text)
  else readIndented mem text

theorem indent_add (text : List UInt8) : indent text + (ltrim text).length = text.length := by
  have lengths := congrArg List.length (ltrim_split text)
  rwa [List.length_append] at lengths

theorem ltrim_of_indent {text : List UInt8} (none : indent text = 0) : ltrim text = text := by
  have split := ltrim_split text
  rw [List.length_eq_zero_iff.mp none, List.nil_append] at split
  exact split

/-- Trimming stores NULs behind the text and nothing behind the line. -/
theorem trimRight_clears {mem : Memory UInt8} {line : List UInt8} (reads : Reads mem line) :
    (∀ i, (rtrim line).length ≤ i → i ≤ line.length → (trimRight mem line.length).1 i = 0) ∧
    ∀ i, line.length < i → (trimRight mem line.length).1 i = mem i := by
  induction line using List.reverseRecOn generalizing mem with
  | nil =>
      refine ⟨fun i _ high => ?_, fun i _ => rfl⟩
      rw [Nat.le_zero.mp high]
      exact reads.stop
  | append_singleton line b ih =>
      have char : mem line.length = b := by
        rw [reads.char line.length (by simp)]
        simp
      have stop := reads.stop
      rw [List.length_append, List.length_singleton] at stop ⊢
      rw [trimRight, char]
      cases space : isspace b with
      | true =>
          obtain ⟨clear, beyond⟩ := ih reads.cut_append
          rw [if_pos rfl, rtrim_space line space]
          refine ⟨fun i low high => ?_, fun i high => ?_⟩
          · by_cases last : i = line.length + 1
            · rw [last, beyond _ (Nat.lt_succ_self _), mem.set_other 0 (Nat.succ_ne_self _)]
              exact stop
            · exact clear i low (by omega)
          · rw [beyond i (by omega), mem.set_other 0 (by omega)]
      | false =>
          rw [if_neg Bool.false_ne_true, rtrim_ink line space]
          refine ⟨fun i low high => ?_, fun i _ => rfl⟩
          rw [List.length_append, List.length_singleton] at low
          rw [show i = line.length + 1 by omega]
          exact stop

/-- The buffer once a line is in it and trimmed. -/
structure Trimmed (mem : Memory UInt8) (text : List UInt8) (after : Memory UInt8) : Prop where
  reads : Reads after (rtrim text)
  inner : Reads (fun j => after (indent (rtrim text) + j)) (trimmed text)
  clear : ∀ i, (rtrim text).length ≤ i → i ≤ text.length + 1 → after i = 0
  beyond : ∀ i, text.length + 1 < i → after i = mem i

/-- What the loop does with a line that ends in a newline. -/
def parseTrimmed (after : Memory UInt8) (lp len : Nat) : Memory UInt8 × Entry :=
  if after lp = 0 then (after, .skip)
  else if after lp = 91 ∧ after (lp + len) = 93 then parseHeader after lp len
  else if !isalnum (after lp) then (after, .skip)
  else parseAssignment after lp

theorem reads_line (mem : Memory UInt8) {text : List UInt8} (nonNul : 0 ∉ text) :
    Reads (mem.write 0 (text ++ [10] ++ [0])) (text ++ [10]) := by
  have reads := reads_write_bytes mem (text ++ [10])
  rwa [takeWhile_of_not_mem (List.not_mem_append nonNul (by decide))] at reads

/-- A line in the buffer is trimmed and then read from its first byte that is no white
space. -/
theorem parseLine_trims (mem : Memory UInt8) {text : List UInt8} (nonNul : 0 ∉ text)
    (short : text.length ≤ 94) :
    ∃ after, Trimmed mem text after ∧
      trimRight (mem.write 0 (text ++ [10] ++ [0])) (text.length + 1) =
        (after, (rtrim text).length - 1) ∧
      skipSpace after 0 = indent (rtrim text) ∧
      parseLine (mem.write 0 (text ++ [10] ++ [0])) =
        parseTrimmed after (indent (rtrim text)) ((rtrim text).length - 1) := by
  have reads := reads_line mem nonNul
  have length : (text ++ [10]).length = text.length + 1 := by simp
  obtain ⟨after, trim, kept, front, lengths, parsed⟩ := parseLine_ended reads short
  obtain ⟨clear, beyond⟩ := trimRight_clears reads
  rw [length, trim] at clear beyond
  rw [rtrim_space text (by decide)] at clear
  have skipped : skipSpace after 0 = indent (rtrim text) := by
    have add := indent_add (rtrim text)
    omega
  rw [skipped] at front parsed
  refine ⟨after, ⟨kept, front, clear, fun i behind => ?_⟩, trim, skipped, parsed⟩
  exact (beyond i behind).trans (mem.write_outside _ (.inr (by simp; omega)))

theorem backOverSpace_lt (mem : Memory UInt8) (lp : Nat) {len : Nat} (more : 2 ≤ len) :
    backOverSpace mem lp len < len := by
  induction len with
  | zero => omega
  | succ len ih =>
      obtain ⟨n, rfl⟩ : ∃ n, len = n + 1 := ⟨len - 1, by omega⟩
      rw [backOverSpace]
      split
      · by_cases last : n = 0
        · subst last
          rw [backOverSpace]
          omega
        · have less := ih (by omega)
          omega
      · omega

/-- The loop does not go back over a byte that is no white space. -/
theorem backOverSpace_ge {mem : Memory UInt8} {lp j : Nat} (ink : isspace (mem (lp + j)) = false)
    {len : Nat} (before : j < len) : j ≤ backOverSpace mem lp len := by
  fun_induction backOverSpace mem lp len with
  | case1 => omega
  | case2 => omega
  | case3 len space ih =>
      refine ih ?_
      by_contra last
      have here : j = len + 1 := by omega
      rw [here, space] at ink
      cases ink
  | case4 len stops => omega

/-- With a bracket found behind the line, all that follows the opening one is the name;
the only byte stored is behind the line. -/
theorem parseHeader_stray {mem after : Memory UInt8} {text rest : List UInt8}
    (trim : Trimmed mem text after) (short : text.length ≤ 94)
    (opening : trimmed text = 91 :: rest) (stray : text.length + 1 < closing text) :
    (parseHeader after (indent (rtrim text)) ((rtrim text).length - 1)).2.reading =
        .header (((ltrim rest).take 32).map toupper) ∧
      ∃ w, text.length + 1 < w ∧ w ≤ closing text ∧
        (parseHeader after (indent (rtrim text)) ((rtrim text).length - 1)).1 = after.set w 0 := by
  have within := rtrim_length_le text
  have lengths := indent_add (rtrim text)
  have trimmed_length : (ltrim (rtrim text)).length = rest.length + 1 :=
    congrArg List.length opening
  have inner := trim.inner
  unfold closing at stray ⊢
  rw [opening] at inner
  generalize indent (rtrim text) = lp at *
  have name_ := inner.behind (v := [91])
  simp only [List.length_singleton, ← Nat.add_assoc] at name_
  obtain ⟨found, name⟩ := skipSpace_reads name_ (by omega)
  have nul : isspace (after (lp + (text.length + 1 - lp))) = false := by
    rw [Nat.add_sub_cancel' (by omega), trim.clear _ (by omega) (Nat.le_refl _)]
    rfl
  have low := backOverSpace_ge nul (show text.length + 1 - lp < (rtrim text).length - 1 by omega)
  have high := backOverSpace_lt after lp (show 2 ≤ (rtrim text).length - 1 by omega)
  have blanks := indent_add rest
  unfold parseHeader
  dsimp only
  generalize backOverSpace after lp ((rtrim text).length - 1) = len at low high ⊢
  rw [if_neg (by omega)]
  generalize skipSpace after (lp + 1) = start at found name ⊢
  constructor
  · have kept : Reads (fun j => (after.set (start + (len - (start - (lp + 1)))) 0) (start + j))
        (ltrim rest) := by
      refine name.congr fun j inside => ?_
      exact after.set_other 0 (by omega)
    exact congrArg Reading.header (congrArg (List.map toupper) (textAt_bytes kept 32))
  · exact ⟨start + (len - (start - (lp + 1))), by omega, by omega, rfl⟩

/-! ## Every line -/

/-- Where a line that begins with white space looks for its bracket there is one exactly
when it finds a stray one. -/
theorem closing_iff {mem after : Memory UInt8} {text : List UInt8} (trim : Trimmed mem text after)
    (nonNul : 0 ∉ text) (opening : (trimmed text).head? = some 91)
    (blank : indent (rtrim text) ≠ 0) :
    after (indent (rtrim text) + ((rtrim text).length - 1)) = 93 ↔ Finds mem text := by
  have low : (rtrim text).length ≤ closing text := by
    unfold closing
    omega
  change after (closing text) = 93 ↔ _
  by_cases stray : text.length + 1 < closing text
  · rw [trim.beyond _ stray]
    exact ⟨fun found => ⟨⟨nonNul, opening, stray⟩, found⟩, And.right⟩
  · rw [trim.clear _ low (Nat.le_of_not_lt stray)]
    exact ⟨fun zero => absurd zero (by decide), fun finds => absurd finds.1.2.2 stray⟩

/-- A line that begins with white space says what is left of it. -/
theorem parseTrimmed_indented {mem after : Memory UInt8} {text : List UInt8}
    (trim : Trimmed mem text after) (nonNul : 0 ∉ text) (short : text.length ≤ 94)
    (blank : indent (rtrim text) ≠ 0) :
    (parseTrimmed after (indent (rtrim text)) ((rtrim text).length - 1)).2.reading =
      readIndented mem text := by
  have some_ : rtrim text ≠ [] := by
    intro empty
    rw [empty] at blank
    exact blank rfl
  have within := rtrim_length_le text
  have lengths := indent_add (rtrim text)
  have inner := trim.inner
  unfold parseTrimmed readIndented
  cases front : trimmed text with
  | nil => exact absurd front (ltrim_rtrim_ne_nil some_)
  | cons b rest =>
      rw [front] at inner
      have first : after (indent (rtrim text)) = b := inner.head rfl
      have charged : b ≠ 0 := inner.nonNul b List.mem_cons_self
      have trimmed_length : (ltrim (rtrim text)).length = rest.length + 1 := congrArg List.length front
      rw [first, if_neg charged]
      by_cases opening : b = 91
      · subst opening
        have closes := closing_iff trim nonNul (by rw [front]; rfl) blank
        rw [if_pos List.head?_cons]
        by_cases finds : Finds mem text
        · rw [if_pos ⟨rfl, closes.mpr finds⟩, if_pos finds]
          exact (parseHeader_stray trim short front finds.1.2.2).1
        · rw [if_neg (fun both => finds (closes.mp both.2)), if_neg finds]
          rfl
      · have here : ¬ (b = 91 ∧
            after (indent (rtrim text) + ((rtrim text).length - 1)) = 93) := fun both =>
          opening both.1
        have whole : ¬ (b = 91 ∧ rest.getLast? = some 93) := fun both => opening both.1
        have other : ¬ (b :: rest).head? = some 91 := fun same => opening (Option.some_inj.mp same)
        rw [if_neg here, if_neg other, readText_cons, if_neg whole]
        split
        · rfl
        · exact parseAssignment_reads inner (by rw [List.length_cons]; omega)

/-- A line with a NUL in it ends there and is skipped. -/
theorem parseLine_nul (mem : Memory UInt8) {text : List UInt8} (oneLine : 10 ∉ text)
    (short : text.length ≤ 94) (nul : 0 ∈ text) :
    parseLine (mem.write 0 (text ++ [10] ++ [0])) = (mem.write 0 (text ++ [10] ++ [0]), .skip) := by
  refine parseLine_skipped mem ?_ ?_ fun both => both.1 (List.mem_append_left [10] nul)
  · rw [List.length_append, List.length_singleton]
    omega
  · rwa [List.dropLast_concat]

/-- A line says what it says by itself, apart from a bracket found behind it. -/
theorem parseLine_reading (mem : Memory UInt8) {text : List UInt8} (oneLine : 10 ∉ text)
    (short : text.length ≤ 94) :
    (parseLine (mem.write 0 (text ++ [10] ++ [0]))).2.reading = readLine mem text := by
  unfold readLine
  by_cases nul : 0 ∈ text
  · rw [if_pos nul, parseLine_nul mem oneLine short nul]
    rfl
  · rw [if_neg nul]
    by_cases blank : indent (rtrim text) = 0
    · rw [if_pos blank]
      refine parseLine_reads (reads_line mem nul) short fun b first => ?_
      rw [← ltrim_of_indent blank] at first
      exact ltrim_head first
    · rw [if_neg blank]
      obtain ⟨after, trim, _, _, parsed⟩ := parseLine_trims mem nul short
      rw [parsed]
      exact parseTrimmed_indented trim nul short blank

/-! ## Lines that say nothing -/

/-- Brackets around a name of at least two bytes. -/
def Heading (text : List UInt8) : Prop :=
  text.head? = some 91 ∧ text.tail.getLast? = some 93 ∧ 2 ≤ (rtrim text.tail.dropLast).length

/-- An alphanumeric in front and a key of at least two bytes before an equals sign. -/
def Assigns (text : List UInt8) : Prop :=
  (∀ b ∈ text.head?, isalnum b = true) ∧ 61 ∈ text ∧
    2 ≤ (rtrim (text.takeWhile (· != 61))).length

instance (text : List UInt8) : Decidable (Heading text) := by
  unfold Heading
  infer_instance

/-- What a line says when it finds no bracket behind itself. -/
def readQuiet (text : List UInt8) : Reading :=
  if 0 ∈ text then .skip
  else if indent (rtrim text) = 0 then readText (rtrim text)
  else if (trimmed text).head? = some 91 then .skip
  else readText (trimmed text)

/-- The name of the section that begins when it does. -/
def strayName (text : List UInt8) : List UInt8 :=
  ((ltrim (trimmed text).tail).take 32).map toupper

theorem readAssignment_skip_iff (text : List UInt8) :
    readAssignment text = .skip ↔
      ¬ (61 ∈ text ∧ 2 ≤ (rtrim (text.takeWhile (· != 61))).length) := by
  unfold readAssignment
  cases behind : text.dropWhile (· != 61) with
  | nil =>
      have other : ∀ b ∈ text, (b != 61) = true := List.dropWhile_eq_nil_iff.mp behind
      exact ⟨fun _ both => absurd (other 61 both.1) (by decide), fun _ => rfl⟩
  | cons b body =>
      have equals : 61 ∈ text := by
        by_contra none_
        have other : ∀ b ∈ text, (b != 61) = true := fun b member =>
          bne_iff_ne.mpr fun same => none_ (same ▸ member)
        rw [List.dropWhile_eq_nil_iff.mpr other] at behind
        cases behind
      dsimp only
      split
      · rename_i thin
        exact ⟨fun _ both => absurd both.2 (by omega), fun _ => rfl⟩
      · rename_i named
        exact ⟨nofun, fun none_ => absurd ⟨equals, by omega⟩ none_⟩

/-- A text that is neither a section nor a key says nothing. -/
theorem readText_skip_iff (text : List UInt8) :
    readText text = .skip ↔ ¬ Heading text ∧ ¬ Assigns text := by
  cases text with
  | nil =>
      have other : ¬ Heading [] := fun heading => by cases heading.1
      have none_ : ¬ Assigns [] := fun assigns => by cases assigns.2.1
      exact ⟨fun _ => ⟨other, none_⟩, fun _ => rfl⟩
  | cons b rest =>
      rw [readText_cons]
      by_cases brackets : b = 91 ∧ rest.getLast? = some 93
      · obtain ⟨rfl, last⟩ := brackets
        have other : ¬ Assigns (91 :: rest) := fun assigns =>
          absurd (assigns.1 91 rfl) (by decide)
        rw [if_pos ⟨rfl, last⟩]
        unfold readHeader
        split
        · rename_i thin
          exact ⟨fun _ => ⟨fun heading => absurd heading.2.2 (Nat.not_le.mpr thin), other⟩,
            fun _ => rfl⟩
        · rename_i named
          exact ⟨nofun, fun none_ => absurd ⟨rfl, last, Nat.not_lt.mp named⟩ none_.1⟩
      · have other : ¬ Heading (b :: rest) := fun heading =>
          brackets ⟨Option.some_inj.mp heading.1, heading.2.1⟩
        rw [if_neg brackets]
        cases alnum : isalnum b with
        | false =>
            refine ⟨fun _ => ⟨other, fun assigns => ?_⟩, fun _ => rfl⟩
            have first := assigns.1 b rfl
            rw [alnum] at first
            cases first
        | true =>
            rw [if_neg (by decide), readAssignment_skip_iff]
            refine ⟨fun none_ => ⟨other, fun assigns => none_ assigns.2⟩, fun none_ both => ?_⟩
            refine none_.2 ⟨fun c first => ?_, both⟩
            rwa [← Option.some_inj.mp first]

theorem stray_indented {text : List UInt8} (stray : Stray text) : indent (rtrim text) ≠ 0 := by
  intro none_
  have far := stray.2.2
  have within := rtrim_length_le text
  unfold closing at far
  omega

theorem rtrim_blank {text : List UInt8} (blank : indent (rtrim text) ≠ 0) :
    ∀ b ∈ (rtrim text).head?, isspace b = true := by
  intro b first
  unfold indent at blank
  cases front : rtrim text with
  | nil =>
      rw [front] at first
      cases first
  | cons c rest =>
      rw [front] at first blank
      cases first
      by_contra ink
      rw [List.takeWhile_cons_of_neg ink] at blank
      exact blank rfl

theorem readQuiet_skip_iff (text : List UInt8) :
    readQuiet text = .skip ↔ 0 ∈ text ∨ (¬ Heading (rtrim text) ∧ ¬ Assigns (trimmed text)) := by
  unfold readQuiet
  by_cases nul : 0 ∈ text
  · rw [if_pos nul]
    exact ⟨fun _ => .inl nul, fun _ => rfl⟩
  · rw [if_neg nul, or_iff_right nul]
    by_cases blank : indent (rtrim text) = 0
    · have same : trimmed text = rtrim text := ltrim_of_indent blank
      rw [if_pos blank, same, readText_skip_iff]
    · have other : ¬ Heading (rtrim text) := fun heading =>
        absurd (rtrim_blank blank 91 heading.1) (by decide)
      rw [if_neg blank, and_iff_right other]
      by_cases opening : (trimmed text).head? = some 91
      · rw [if_pos opening]
        exact ⟨fun _ assigns => absurd (assigns.1 91 opening) (by decide), fun _ => rfl⟩
      · rw [if_neg opening, readText_skip_iff]
        exact and_iff_right fun heading => opening heading.1

theorem readQuiet_stray {text : List UInt8} (stray : Stray text) : readQuiet text = .skip := by
  unfold readQuiet
  rw [if_neg stray.1, if_neg (stray_indented stray), if_pos stray.2.1]

/-- All that a line says of what the buffer held before is a bracket behind it. -/
theorem readLine_eq (mem : Memory UInt8) (text : List UInt8) :
    readLine mem text = if Finds mem text then .header (strayName text) else readQuiet text := by
  unfold readLine readQuiet readIndented
  by_cases finds : Finds mem text
  · rw [if_neg finds.1.1, if_neg (stray_indented finds.1), if_pos finds.1.2.1, if_pos finds,
      if_pos finds]
    rfl
  · rw [if_neg finds, if_neg finds]

theorem readLine_eq_iff (mem mem' : Memory UInt8) (text : List UInt8) :
    readLine mem text = readLine mem' text ↔ (Finds mem text ↔ Finds mem' text) := by
  rw [readLine_eq, readLine_eq]
  by_cases finds : Finds mem text
  · rw [if_pos finds]
    by_cases finds' : Finds mem' text
    · rw [if_pos finds']
      exact ⟨fun _ => iff_of_true finds finds', fun _ => rfl⟩
    · rw [if_neg finds', readQuiet_stray finds.1]
      exact ⟨nofun, fun same => absurd (same.mp finds) finds'⟩
  · rw [if_neg finds]
    by_cases finds' : Finds mem' text
    · rw [if_pos finds', readQuiet_stray finds'.1]
      exact ⟨nofun, fun same => absurd (same.mpr finds') finds⟩
    · rw [if_neg finds']
      exact ⟨fun _ => iff_of_false finds finds', fun _ => rfl⟩

theorem readLine_skip_iff (mem : Memory UInt8) (text : List UInt8) :
    readLine mem text = .skip ↔
      ¬ Finds mem text ∧
        (0 ∈ text ∨ (¬ Heading (rtrim text) ∧ ¬ Assigns (trimmed text))) := by
  rw [readLine_eq, ← readQuiet_skip_iff]
  split
  · rename_i finds
    exact ⟨nofun, fun both => absurd finds both.1⟩
  · rename_i lost
    exact ⟨fun quiet => ⟨lost, quiet⟩, And.right⟩

end CprFormal.Keyfile.Lines
