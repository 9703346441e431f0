import CprFormal.Keyfile.Outline

/-!
# What `load_keyfile` makes of well-formed key files

A file of blank lines, comments, headers and assignments is read as it is meant when
every header can be read and, for every key of a section, the last assignment of it
that can be read brings the value of the last one.  A line cannot be read without its
newline, with a NUL in it, or with a name of a single byte.
-/

namespace CprFormal.Keyfile.Loader

open CprFormal.Library.FlatMemory CprFormal.Library.Lists
open CprFormal.Strchar.Ctype CprFormal.Strchar.Strlen
open CprFormal.Keyfile.Model CprFormal.Keyfile.Chunks CprFormal.Keyfile.Grammar
open CprFormal.Keyfile.Outline

/-- The name of a section or of a key. -/
structure Name where
  bytes : List UInt8
  nonempty : bytes ≠ []
  short : bytes.length ≤ 32
  first : ∀ b ∈ bytes.head?, isspace b = false
  last : ∀ b ∈ bytes.getLast?, isspace b = false

/-- The name of a key. -/
structure KeyName extends Name where
  alnum : ∀ b ∈ bytes.head?, isalnum b = true
  noEquals : 61 ∉ bytes

structure Blanks where
  bytes : List UInt8
  blank : ∀ b ∈ bytes, isspace b = true

/-- The lines of a key file. -/
inductive Line where
  | blank (blanks : Blanks)
  | comment (mark : UInt8) (rest : List UInt8) (ink : isspace mark = false)
      (other : isalnum mark = false ∧ mark ≠ 91)
  | header (before : Blanks) (name : Name) (after : Blanks)
  | assignment (key : KeyName) (after : Blanks) (body : List UInt8)

namespace Line

def text : Line → List UInt8
  | blank blanks => blanks.bytes
  | comment mark rest _ _ => mark :: rest
  | header before name after => 91 :: (before.bytes ++ (name.bytes ++ after.bytes)) ++ [93]
  | assignment key after body => (key.bytes ++ after.bytes ++ [61]) ++ body

/-- The section that begins with a line. -/
def section? : Line → Option (List UInt8)
  | header _ name _ => some (name.bytes.map toupper)
  | _ => none

/-- The key that a line assigns. -/
def key? : Line → Option (List UInt8)
  | assignment key _ _ => some (key.bytes.map tolower)
  | _ => none

/-- What stands behind the equals sign and one blank, without white space at its
end. -/
def quotedValue : Line → List UInt8
  | assignment _ _ body => rtrim (dropBlank body)
  | _ => []

end Line

/-- A value without one pair of quotes around it. -/
def withoutQuotes : List UInt8 → List UInt8
  | q :: c :: rest =>
      if (q = 39 ∨ q = 34) ∧ (c :: rest).getLast? = some q then (c :: rest).dropLast
      else q :: c :: rest
  | value => value

namespace Line

/-- The value a line assigns. -/
def value (line : Line) : List UInt8 := withoutQuotes line.quotedValue

/-- The value that is read from a line. -/
def readValue (line : Line) : List UInt8 := unquoted line.quotedValue

/-- The name behind a bracket or in front of an equals sign is long enough. -/
def long : Line → Bool
  | header before name _ => decide (2 ≤ before.bytes.length + name.bytes.length)
  | assignment key _ _ => decide (2 ≤ key.bytes.length)
  | _ => true

end Line

/-- A line as it stands in a file, with a newline or without. -/
structure FileLine where
  line : Line
  oneLine : 10 ∉ line.text
  short : line.text.length ≤ 94
  ended : Bool

namespace FileLine

def bytes (l : FileLine) : List UInt8 := if l.ended then l.line.text ++ [10] else l.line.text

/-- Whether `load_keyfile` takes anything from a line. -/
def readable (l : FileLine) : Bool := l.ended && !l.line.text.contains 0 && l.line.long

end FileLine

/-- A file; only its last line may lack the newline. -/
structure File where
  lines : List FileLine
  ended : ∀ l ∈ lines.dropLast, l.ended = true

def File.bytes (file : File) : List UInt8 := (file.lines.map FileLine.bytes).flatten

/-- The lines of each section, the last of them first; `lines` are those of the first
section so far. -/
def segments (lines : List FileLine) : List FileLine → List (List FileLine)
  | [] => [lines]
  | l :: rest =>
      if l.line.section?.isSome then lines :: segments [] rest else segments (l :: lines) rest

/-- The last assignment of a key in a section. -/
def lastAssignment (segment : List FileLine) (id : List UInt8) : Option FileLine :=
  segment.find? fun l => decide (l.line.key? = some id)

/-- The last assignment of a key in a section that can be read. -/
def lastRead (segment : List FileLine) (id : List UInt8) : Option FileLine :=
  segment.find? fun l => l.readable && decide (l.line.key? = some id)

/-- The root section and a section for each header, in which a lookup of every key that
is assigned there yields the value of its last assignment. -/
structure Accepted (file : File) (loaded : List KeysectionT) : Prop where
  ids : loaded.map (fun group => group.id.bytes) =
    [42] :: file.lines.filterMap fun l => l.line.section?
  values : List.Forall₂ (fun segment group => ∀ id : CString,
    ∀ l ∈ lastAssignment segment id.bytes,
      (getKeyvalue group id).map CString.bytes = some l.line.value)
    (segments [] file.lines) loaded

theorem dropBlank_rtrim (body : List UInt8) : dropBlank (rtrim body) = rtrim (dropBlank body) := by
  cases body with
  | nil => rfl
  | cons b body =>
      rw [dropBlank_cons]
      cases space : isspace b with
      | false =>
          have front := rtrim_behind [] space body
          rw [List.nil_append, List.singleton_append] at front
          rw [if_neg Bool.false_ne_true, front, List.singleton_append, dropBlank_cons, space,
            if_neg Bool.false_ne_true]
      | true =>
          rw [if_pos rfl]
          induction body using List.reverseRecOn with
          | nil => exact congrArg dropBlank (rtrim_space [] space)
          | append_singleton body c ih =>
              rw [← List.cons_append]
              cases behind : isspace c with
              | true =>
                  rw [rtrim_space _ behind, rtrim_space _ behind]
                  exact ih
              | false =>
                  rw [rtrim_ink _ behind, rtrim_ink _ behind, List.cons_append, dropBlank_cons,
                    space, if_pos rfl]

/-- What is read from a line that is long enough. -/
def Line.reading : Line → Reading
  | header _ name _ => .header (name.bytes.map toupper)
  | assignment key _ body => .key (key.bytes.map tolower) (unquoted (rtrim (dropBlank body)))
  | _ => .skip

theorem header_reading (before : Blanks) (name : Name) (after : Blanks) :
    readText (rtrim (Line.header before name after).text) =
      if 2 ≤ before.bytes.length + name.bytes.length then .header (name.bytes.map toupper)
      else .skip := by
  have shown : rtrim (before.bytes ++ (name.bytes ++ after.bytes)) = before.bytes ++ name.bytes := by
    rw [← List.append_assoc, rtrim_blanks _ after.blank]
    refine rtrim_last fun b last => name.last b ?_
    rwa [List.getLast?_append_of_ne_nil _ name.nonempty] at last
  have trimmed : ltrim (before.bytes ++ name.bytes) = name.bytes := by
    unfold ltrim
    rw [List.dropWhile_append_of_pos before.blank]
    exact ltrim_ink name.first
  have short : name.bytes.take 32 = name.bytes := List.take_of_length_le name.short
  unfold Line.text
  rw [rtrim_ink _ (by decide), readText_header]
  unfold readHeader
  rw [shown, trimmed, short, List.length_append]
  by_cases thin : before.bytes.length + name.bytes.length < 2
  · rw [if_pos thin, if_neg (Nat.not_le_of_lt thin)]
  · rw [if_neg thin, if_pos (Nat.le_of_not_lt thin)]

theorem assignment_reading (key : KeyName) (after : Blanks) (body : List UInt8) :
    readText (rtrim (Line.assignment key after body).text) =
      if 2 ≤ key.bytes.length then
        .key (key.bytes.map tolower) (unquoted (rtrim (dropBlank body)))
      else .skip := by
  have name : rtrim (key.bytes ++ after.bytes) = key.bytes := by
    rw [rtrim_blanks _ after.blank]
    exact rtrim_last key.last
  have noEquals : 61 ∉ key.bytes ++ after.bytes := by
    intro member
    rcases List.mem_append.mp member with inside | blank
    · exact key.noEquals inside
    · exact absurd (after.blank 61 blank) (by decide)
  have short : key.bytes.take 32 = key.bytes := List.take_of_length_le key.short
  have first := List.head?_eq_some_head key.nonempty
  have start : (key.bytes ++ after.bytes ++ 61 :: rtrim body).head? =
      some (key.bytes.head key.nonempty) := by
    rw [List.append_assoc, List.head?_append_of_ne_nil _ key.nonempty, first]
  unfold Line.text
  rw [rtrim_behind _ (by decide), List.append_assoc, List.singleton_append,
    readText_alnum start (key.alnum _ first), readAssignment_equals noEquals, name, short,
    dropBlank_rtrim]
  by_cases thin : key.bytes.length < 2
  · rw [if_pos thin, if_neg (Nat.not_le_of_lt thin)]
  · rw [if_neg thin, if_pos (Nat.le_of_not_lt thin)]

theorem text_reading (line : Line) :
    readText (rtrim line.text) = if line.long then line.reading else .skip := by
  cases line with
  | blank blanks =>
      have none := rtrim_blanks [] blanks.blank
      rw [List.nil_append] at none
      unfold Line.text
      rw [none]
      rfl
  | comment mark rest ink other =>
      have front := rtrim_behind [] ink rest
      rw [List.nil_append, List.singleton_append] at front
      unfold Line.text
      rw [front, List.singleton_append, readText_cons, if_neg (fun both => other.2 both.1), other.1,
        if_pos (by decide)]
      rfl
  | header before name after =>
      simpa only [Line.long, Line.reading, decide_eq_true_eq] using header_reading before name after
  | assignment key after body =>
      simpa only [Line.long, Line.reading, decide_eq_true_eq] using assignment_reading key after body

/-! ## Reading the lines of a file -/

theorem text_ink (line : Line) : ∀ b ∈ (rtrim line.text).head?, isspace b = false := by
  cases line with
  | blank blanks =>
      have none := rtrim_blanks [] blanks.blank
      intro b first
      rw [List.nil_append] at none
      rw [Line.text, none] at first
      cases first
  | comment mark rest ink other =>
      refine rtrim_head fun b first => ?_
      cases first
      exact ink
  | header before name after =>
      refine rtrim_head fun b first => ?_
      cases first
      decide
  | assignment key after body =>
      refine rtrim_head fun b first => key.first b ?_
      rwa [Line.text, List.append_assoc, List.append_assoc,
        List.head?_append_of_ne_nil _ key.nonempty] at first

theorem rtrim_bytes (l : FileLine) : rtrim l.bytes = rtrim l.line.text := by
  unfold FileLine.bytes
  split
  · exact rtrim_space _ (by decide)
  · rfl

/-- A line of a file is taken whole, and what is read from it does not depend on what
came before. -/
theorem bytes_plain (l : FileLine) : Plain l.bytes := by
  have short := l.short
  refine ⟨?_, ?_, ?_⟩
  · unfold FileLine.bytes
    split
    · rw [List.length_append, List.length_singleton]
      omega
    · omega
  · unfold FileLine.bytes
    split
    · rw [List.dropLast_concat]
      exact l.oneLine
    · exact fun newline => l.oneLine (List.dropLast_subset _ newline)
  · rw [rtrim_bytes]
    exact text_ink l.line

/-- What is read from a line of a file. -/
def FileLine.reading (l : FileLine) : Reading := if l.readable then l.line.reading else .skip

theorem readChunk_bytes (l : FileLine) : readChunk l.bytes = l.reading := by
  have trimmed := rtrim_bytes l
  unfold readChunk FileLine.reading FileLine.readable
  rw [trimmed, text_reading]
  unfold FileLine.bytes
  cases l.ended with
  | false =>
      have unended : l.line.text.getLast? ≠ some 10 := fun last =>
        l.oneLine (List.mem_of_getLast? last)
      rw [if_neg Bool.false_ne_true, if_neg (fun both => unended both.2)]
      rfl
  | true =>
      by_cases nul : 0 ∈ l.line.text
      · simp [nul]
      · cases l.line.long <;> simp [nul]

theorem outline_skip (current : Group) (readings : List Reading) :
    outline current (readings ++ [.skip]) = outline current readings := by
  induction readings generalizing current with
  | nil => rfl
  | cons reading readings ih =>
      cases reading with
      | skip => exact ih current
      | header id => exact congrArg (current :: ·) (ih _)
      | key id value => exact ih _

theorem isLine_bytes {l : FileLine} (ended : l.ended = true) : IsLine l.bytes := by
  have short := l.short
  unfold FileLine.bytes
  rw [if_pos ended]
  refine ⟨l.line.text, rfl, l.oneLine, ?_⟩
  rw [List.length_append, List.length_singleton]
  omega

/-- The last line of a file is a chunk, or there is nothing of it. -/
theorem chunks_last (l : FileLine) :
    chunks l.bytes = [l.bytes] ∨ (chunks l.bytes = [] ∧ l.reading = .skip) := by
  have short := l.short
  cases ended : l.ended with
  | true =>
      have line : ∀ line ∈ [l.bytes], IsLine line := by simpa using isLine_bytes ended
      have whole := chunks_flatten line []
      exact .inl (by simpa [chunks_nil] using whole)
  | false =>
      have bytes : l.bytes = l.line.text := by
        unfold FileLine.bytes
        rw [ended, if_neg Bool.false_ne_true]
      by_cases empty : l.line.text = []
      · refine .inr ⟨by rw [bytes, empty, chunks_nil], ?_⟩
        unfold FileLine.reading FileLine.readable
        rw [ended]
        rfl
      · rw [bytes]
        exact .inl (chunks_end l.oneLine (by omega) empty)

/-- A file is read line by line. -/
theorem load_file (stack : Memory UInt8) (file : File) :
    (loadKeyfile stack file.bytes).map groupOf =
      outline ⟨[42], []⟩ (file.lines.map FileLine.reading) := by
  have load {taken : List (List UInt8)} (split : chunks file.bytes = taken)
      (plain : ∀ chunk ∈ taken, Plain chunk) :
      (loadKeyfile stack file.bytes).map groupOf =
        outline ⟨[42], []⟩ (taken.map readChunk) := by
    subst split
    exact load_outline ⟨stack, [], rootSection⟩
      fun chunk member mem => parseLine_chunk (plain chunk member) mem
  have read (lines : List FileLine) :
      (lines.map FileLine.bytes).map readChunk = lines.map FileLine.reading := by
    rw [List.map_map]
    exact List.map_congr_left fun l _ => readChunk_bytes l
  have plain (lines : List FileLine) : ∀ chunk ∈ lines.map FileLine.bytes, Plain chunk := by
    intro chunk member
    obtain ⟨l, _, rfl⟩ := List.mem_map.mp member
    exact bytes_plain l
  rcases List.eq_nil_or_concat file.lines with none | ⟨front, last, split⟩
  · have nothing : chunks file.bytes = [] := by
      rw [File.bytes, none]
      rfl
    rw [load nothing nofun, none]
    rfl
  · rw [List.concat_eq_append] at split
    have ended : ∀ l ∈ front, l.ended = true := by
      have all := file.ended
      rwa [split, List.dropLast_concat] at all
    have cut : chunks file.bytes = front.map FileLine.bytes ++ chunks last.bytes := by
      rw [File.bytes, split, List.map_append, List.flatten_append, List.map_singleton,
        List.flatten_singleton]
      refine chunks_flatten (fun line member => ?_) _
      obtain ⟨l, listed, rfl⟩ := List.mem_map.mp member
      exact isLine_bytes (ended l listed)
    rcases chunks_last last with whole | ⟨nothing, skipped⟩
    · have all : chunks file.bytes = (front ++ [last]).map FileLine.bytes := by
        rw [cut, whole, List.map_append, List.map_singleton]
      rw [load all (plain _), read, split]
    · rw [nothing, List.append_nil] at cut
      rw [load cut (plain _), read, split, List.map_append, List.map_singleton, skipped,
        outline_skip]

theorem reading_section (l : FileLine) :
    l.reading.header? = if l.readable then l.line.section? else none := by
  unfold FileLine.reading
  cases l.readable with
  | false => rfl
  | true => cases l.line <;> rfl

theorem reading_assignment (l : FileLine) :
    l.reading.assignment? =
      if l.readable then l.line.key?.map fun id => (id, l.line.readValue) else none := by
  unfold FileLine.reading
  cases l.readable with
  | false => rfl
  | true => cases l.line <;> rfl

/-- A header that can be read begins its section. -/
theorem section_of_header {l : FileLine}
    (header : l.line.section?.isSome = true → l.readable = true) :
    l.line.section? = l.reading.header? := by
  rw [reading_section]
  cases name : l.line.section? with
  | none => rw [ite_self]
  | some id => rw [if_pos (header (by rw [name]; rfl))]

/-- Where no header is lost, the keys of a section are those its lines bring. -/
theorem outline_segments {lines : List FileLine}
    (headers : ∀ l ∈ lines, l.line.section?.isSome = true → l.readable = true)
    {current : Group} {segment : List FileLine}
    (keys : current.keys = segment.filterMap fun l => l.reading.assignment?) :
    List.Forall₂ (fun segment group =>
        group.keys = segment.filterMap fun l => l.reading.assignment?)
      (segments segment lines) (outline current (lines.map FileLine.reading)) := by
  induction lines generalizing current segment with
  | nil => exact .cons keys .nil
  | cons l lines ih =>
      have rest := fun other member => headers other (List.mem_cons_of_mem l member)
      have same := section_of_header (headers l List.mem_cons_self)
      rw [List.map_cons, segments, same]
      cases said : l.reading with
      | skip =>
          refine ih rest (keys.trans ?_)
          rw [List.filterMap_cons_none (by rw [said]; rfl)]
      | header id => exact .cons keys (ih rest rfl)
      | key id value =>
          refine ih rest ?_
          rw [List.filterMap_cons_some (by rw [said]; rfl), ← keys]

/-! ## Lookups -/

/-- The line that a lookup finds is the last assignment that can be read. -/
theorem lookup_lastRead {group : KeysectionT} {segment : List FileLine}
    (keys : (groupOf group).keys = segment.filterMap fun l => l.reading.assignment?)
    (id : CString) :
    (getKeyvalue group id).map CString.bytes =
      (lastRead segment id.bytes).map fun l => l.line.readValue := by
  have test (l : FileLine) :
      (l.reading.assignment?.any fun key => decide (key.1 = id.bytes)) =
        (l.readable && decide (l.line.key? = some id.bytes)) := by
    rw [reading_assignment]
    cases l.readable with
    | false => rfl
    | true =>
        cases l.line.key? with
        | none => rfl
        | some key => simp
  rw [getKeyvalue_bytes, Group.lookup, keys, List.find?_filterMap]
  unfold lastRead
  simp only [test]
  cases found : segment.find? fun l => l.readable && decide (l.line.key? = some id.bytes) with
  | none => rfl
  | some l =>
      have hit := List.find?_some found
      rw [Bool.and_eq_true, decide_eq_true_eq] at hit
      rw [Option.bind_some, reading_assignment, if_pos hit.1, hit.2]
      rfl

/-- Every key that a section assigns keeps the value of its last assignment. -/
def Kept (segment : List FileLine) : Prop :=
  ∀ id : CString, ∀ last ∈ lastAssignment segment id.bytes,
    ∃ read ∈ lastRead segment id.bytes, read.line.readValue = last.line.value

theorem kept_iff {group : KeysectionT} {segment : List FileLine}
    (keys : (groupOf group).keys = segment.filterMap fun l => l.reading.assignment?) :
    (∀ id : CString, ∀ last ∈ lastAssignment segment id.bytes,
      (getKeyvalue group id).map CString.bytes = some last.line.value) ↔ Kept segment := by
  unfold Kept
  simp only [lookup_lastRead keys, Option.map_eq_some_iff, Option.mem_def]

/-- The headers of a file are all read exactly when none of its sections is missing. -/
theorem ids_iff (stack : Memory UInt8) (file : File) :
    (loadKeyfile stack file.bytes).map (fun group => group.id.bytes) =
        [42] :: file.lines.filterMap (fun l => l.line.section?) ↔
      ∀ l ∈ file.lines, l.line.section?.isSome = true → l.readable = true := by
  have loaded : (loadKeyfile stack file.bytes).map (fun group => group.id.bytes) =
      [42] :: file.lines.filterMap fun l => l.reading.header? := by
    have ids := congrArg (List.map Group.id) (load_file stack file)
    rw [outline_ids, List.map_map, List.filterMap_map] at ids
    exact ids
  rw [loaded, List.cons_inj_right]
  constructor
  · intro same l member header
    have part : ∀ l ∈ file.lines, l.reading.header? = none ∨
        l.reading.header? = l.line.section? := by
      intro l _
      rw [reading_section]
      cases l.readable with
      | false => exact .inl rfl
      | true => exact .inr rfl
    have whole := (filterMap_whole part).2 same l member
    rw [reading_section] at whole
    by_contra unread
    rw [if_neg unread] at whole
    rw [← whole] at header
    cases header
  · intro headers
    exact List.filterMap_congr fun l member => (section_of_header (headers l member)).symm

/-- A well-formed file is loaded as it is meant exactly when all its headers can be read
and the last assignment of a key that can be read in a section brings the value of its
last assignment there. -/
theorem keyfile_accepts_iff (stack : Memory UInt8) (file : File) :
    Accepted file (loadKeyfile stack file.bytes) ↔
      (∀ l ∈ file.lines, l.line.section?.isSome = true → l.readable = true) ∧
      ∀ segment ∈ segments [] file.lines, Kept segment := by
  have sections (headers : ∀ l ∈ file.lines, l.line.section?.isSome = true → l.readable = true) :
      List.Forall₂ (fun segment group =>
          (groupOf group).keys = segment.filterMap fun l => l.reading.assignment?)
        (segments [] file.lines) (loadKeyfile stack file.bytes) := by
    have keys : (⟨[42], []⟩ : Group).keys = [].filterMap fun l : FileLine =>
      l.reading.assignment? := rfl
    have related := outline_segments headers keys
    rw [← load_file stack] at related
    exact List.forall₂_map_right_iff.mp related
  constructor
  · rintro ⟨ids, values⟩
    have headers := (ids_iff stack file).mp ids
    exact ⟨headers, (forall₂_iff_left (sections headers) fun _ _ _ => kept_iff).mp values⟩
  · rintro ⟨headers, kept⟩
    exact ⟨(ids_iff stack file).mpr headers,
      (forall₂_iff_left (sections headers) fun _ _ _ => kept_iff).mpr kept⟩

/-- The header `[a]` and the assignment `ab=1`. -/
def oneByteHeader : File where
  lines := [
    ⟨.header ⟨[], nofun⟩ ⟨[97], by simp, by simp, by simp; decide, by simp; decide⟩ ⟨[], nofun⟩,
      by simp [Line.text], by simp [Line.text], true⟩,
    ⟨.assignment ⟨⟨[97, 98], by simp, by simp, by simp; decide, by simp; decide⟩,
      by simp; decide, by simp⟩ ⟨[], nofun⟩ [49], by simp [Line.text], by simp [Line.text], true⟩]
  ended := by simp

/-- A section with a name of one byte is lost, and its key goes to the root section. -/
theorem keyfile_loses_header :
    oneByteHeader.bytes = [91, 97, 93, 10, 97, 98, 61, 49, 10] ∧
    (loadKeyfile (fun _ => 0) oneByteHeader.bytes).map groupOf = [⟨[42], [([97, 98], [49])]⟩] ∧
    ¬ Accepted oneByteHeader (loadKeyfile (fun _ => 0) oneByteHeader.bytes) := by
  have loaded := load_file (fun _ => 0) oneByteHeader
  refine ⟨rfl, loaded.trans rfl, fun accepted => ?_⟩
  have lengths := congrArg List.length accepted.ids
  have one := congrArg List.length loaded
  rw [List.length_map] at lengths one
  rw [one] at lengths
  exact absurd lengths (by decide)

end CprFormal.Keyfile.Loader
