import CprFormal.Keyfile.Grammar

/-!
# The sections that lines make

`load_keyfile` puts what the chunks of a file say one after the other onto its
sections.  As long as no chunk begins with white space, the sections do not depend on
what the line buffer held before.
-/

namespace CprFormal.Keyfile.Outline

open CprFormal.Library.FlatMemory CprFormal.Library.Lists
open CprFormal.Strchar.Ctype CprFormal.Strchar.Strlen
open CprFormal.Keyfile.Model CprFormal.Keyfile.Grammar

/-- What `fgets` takes at once: text that ends at a newline at the latest. -/
def readChunk (chunk : List UInt8) : Reading :=
  if 0 ∉ chunk ∧ chunk.getLast? = some 10 then readText (rtrim chunk) else .skip

/-- A chunk that fits into the buffer and does not begin with white space, unless it
is blank. -/
structure Plain (chunk : List UInt8) : Prop where
  short : chunk.length ≤ 95
  oneLine : 10 ∉ chunk.dropLast
  ink : ∀ b ∈ (rtrim chunk).head?, isspace b = false

/-- A text that a NUL cuts short of the chunk has no newline. -/
theorem takeWhile_unended {chunk : List UInt8} (oneLine : 10 ∉ chunk.dropLast) (nul : 0 ∈ chunk) :
    (chunk.takeWhile (· != 0)).getLast? ≠ some 10 := by
  intro newline
  obtain ⟨text, cut⟩ := List.getLast?_eq_some_iff.mp newline
  have whole := (takeWhile_split 0 chunk).1
  cases rest : chunk.dropWhile (· != 0) with
  | nil =>
      have kept : ∀ b ∈ chunk, (b != 0) = true := List.dropWhile_eq_nil_iff.mp rest
      exact absurd (kept 0 nul) (by decide)
  | cons b rest' =>
      rw [cut, rest] at whole
      rw [← whole, List.dropLast_append_of_ne_nil (List.cons_ne_nil b rest')] at oneLine
      exact oneLine (by simp)

theorem chunk_unended {chunk : List UInt8} (oneLine : 10 ∉ chunk.dropLast)
    (other : ¬ (0 ∉ chunk ∧ chunk.getLast? = some 10)) :
    (chunk.takeWhile (· != 0)).getLast? ≠ some 10 := by
  by_cases nul : 0 ∈ chunk
  · exact takeWhile_unended oneLine nul
  · rw [takeWhile_of_not_mem nul]
    exact fun newline => other ⟨nul, newline⟩

theorem takeWhile_short {chunk : List UInt8} (short : chunk.length ≤ 95) :
    (chunk.takeWhile (· != 0)).length ≤ 95 :=
  Nat.le_trans (List.takeWhile_prefix (p := (· != 0))).length_le short

/-- A chunk with a NUL or without a newline is skipped and stays in the buffer. -/
theorem parseLine_skipped (mem : Memory UInt8) {chunk : List UInt8} (short : chunk.length ≤ 95)
    (oneLine : 10 ∉ chunk.dropLast) (other : ¬ (0 ∉ chunk ∧ chunk.getLast? = some 10)) :
    parseLine (mem.write 0 (chunk ++ [0])) = (mem.write 0 (chunk ++ [0]), .skip) :=
  parseLine_unended (reads_write_bytes mem chunk) (takeWhile_short short)
    (chunk_unended oneLine other)

/-- A chunk brings what it says, whatever the buffer held before. -/
theorem parseLine_chunk {chunk : List UInt8} (plain : Plain chunk) (mem : Memory UInt8) :
    (parseLine (mem.write 0 (chunk ++ [0]))).2.reading = readChunk chunk := by
  have reads := reads_write_bytes mem chunk
  have short := plain.short
  unfold readChunk
  by_cases ended : 0 ∉ chunk ∧ chunk.getLast? = some 10
  · rw [if_pos ended]
    rw [takeWhile_of_not_mem ended.1] at reads
    obtain ⟨text, rfl⟩ := List.getLast?_eq_some_iff.mp ended.2
    have ink := plain.ink
    rw [List.length_append, List.length_singleton] at short
    rw [rtrim_space text (by decide)] at ink ⊢
    exact parseLine_reads reads (by omega) ink
  · rw [if_neg ended, parseLine_skipped mem short plain.oneLine ended]
    rfl

/-- A section in bytes. -/
structure Group where
  id : List UInt8
  keys : List (List UInt8 × List UInt8)

def groupOf (group : KeysectionT) : Group :=
  ⟨group.id.bytes, group.keys.map fun key => (key.id.bytes, key.value.bytes)⟩

/-- The value of a key in a section. -/
def Group.lookup (group : Group) (id : List UInt8) : Option (List UInt8) :=
  (group.keys.find? fun key => decide (key.1 = id)).map Prod.snd

theorem getKeyvalue_bytes (group : KeysectionT) (id : CString) :
    (getKeyvalue group id).map CString.bytes = (groupOf group).lookup id.bytes := by
  have test (key : KeydataT) : decide (key.id.bytes = id.bytes) = decide (key.id = id) :=
    decide_eq_decide.mpr CString.ext_iff.symm
  unfold getKeyvalue Group.lookup groupOf
  rw [List.find?_map, Option.map_map, Option.map_map]
  simp only [Function.comp_def, test]

/-- The sections that lines bring one after the other, from the current one on. -/
def outline (current : Group) : List Reading → List Group
  | [] => [current]
  | .skip :: lines => outline current lines
  | .header id :: lines => current :: outline ⟨id, []⟩ lines
  | .key id value :: lines => outline ⟨current.id, (id, value) :: current.keys⟩ lines

theorem outline_ids (current : Group) (lines : List Reading) :
    (outline current lines).map Group.id = current.id :: lines.filterMap Reading.header? := by
  induction lines generalizing current with
  | nil => rfl
  | cons line lines ih =>
      cases line with
      | skip => exact ih current
      | header id => exact congrArg (current.id :: ·) (ih _)
      | key id value => exact ih _

/-- One pass of the loop puts one reading on the sections. -/
theorem loadLine_outline (s : Loading) (line : List UInt8) (lines : List Reading) :
    (loadLine s line).before.map groupOf ++ outline (groupOf (loadLine s line).current) lines =
      s.before.map groupOf ++ outline (groupOf s.current)
        ((parseLine (s.mem.write 0 (line ++ [0]))).2.reading :: lines) := by
  unfold loadLine
  generalize parseLine (s.mem.write 0 (line ++ [0])) = parsed
  obtain ⟨mem, entry⟩ := parsed
  cases entry with
  | skip => rfl
  | header id =>
      change (s.before ++ [s.current]).map groupOf ++ _ = _
      rw [List.map_append, List.append_assoc]
      rfl
  | key id value => rfl

/-- Lines that say the same whatever the buffer held before. -/
theorem load_outline (s : Loading) {lines : List (List UInt8)} {read : List UInt8 → Reading}
    (reads : ∀ line ∈ lines, ∀ mem : Memory UInt8,
      (parseLine (mem.write 0 (line ++ [0]))).2.reading = read line) :
    (lines.foldl loadLine s).sections.map groupOf =
      s.before.map groupOf ++ outline (groupOf s.current) (lines.map read) := by
  induction lines generalizing s with
  | nil => simp [Loading.sections, outline]
  | cons line lines ih =>
      rw [List.foldl_cons, ih _ fun other member => reads other (List.mem_cons_of_mem line member),
        loadLine_outline, reads line List.mem_cons_self]
      rfl

end CprFormal.Keyfile.Outline
