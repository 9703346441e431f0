import CprFormal.Keyfile.Loaded

/-!
# What comes back of a saved file

The lines that `save_keyfile` writes for loaded sections, as `load_keyfile` reads them.
A name is trimmed at its end, the header of a name of one byte brings nothing, and so
does the line of a key that does not fit into the line buffer; the keys of a section
come back in reversed order.
-/

namespace CprFormal.Keyfile.Saved

open CprFormal.Library.FlatMemory
open CprFormal.Strchar.Ctype CprFormal.Strchar.Strlen
open CprFormal.Keyfile.Model CprFormal.Keyfile.Chunks CprFormal.Keyfile.Grammar
open CprFormal.Keyfile.Outline CprFormal.Keyfile.Loaded

/-- What the calls of `fgets` take of a line brings a reading. -/
def ReadsBack (line : List UInt8) (reading : Reading) : Prop :=
  ∃ taken, (∀ rest, chunks (line ++ rest) = taken ++ chunks rest) ∧
    (∀ chunk ∈ taken, Plain chunk) ∧
    ∀ current more, outline current (taken.map readChunk ++ more) =
      outline current (reading :: more)

theorem readsBack_text {text : List UInt8} (oneLine : 10 ∉ text) (nonNul : 0 ∉ text)
    (fits : text.length ≤ 94) (first : ∀ b ∈ text.head?, isspace b = false)
    (last : ∀ b ∈ text.getLast?, isspace b = false) : ReadsBack (text ++ [10]) (readText text) := by
  have trimmed : rtrim (text ++ [10]) = text :=
    (rtrim_space text (by decide)).trans (rtrim_last last)
  have read : readChunk (text ++ [10]) = readText text := by
    unfold readChunk
    rw [if_pos ⟨by simp [nonNul], List.getLast?_concat⟩, trimmed]
  refine ⟨[text ++ [10]], fun rest => ?_, fun chunk member => ?_, fun current more => ?_⟩
  · rw [List.append_assoc]
    exact chunks_line oneLine fits rest
  · rw [List.mem_singleton.mp member]
    refine ⟨?_, ?_, ?_⟩
    · rw [List.length_append, List.length_singleton]
      omega
    · rwa [List.dropLast_concat]
    · rwa [trimmed]
  · rw [List.map_singleton, read, List.singleton_append]

/-- A line that is too long is cut, and neither part of it is read. -/
theorem readsBack_cut {full tail : List UInt8} (oneLine : 10 ∉ full) (length : full.length = 95)
    (first : ∀ b ∈ full.head?, isspace b = false)
    (left : tail = [] ∨ tail = [39] ∨ tail = [34]) : ReadsBack (full ++ (tail ++ [10])) .skip := by
  have unended : readChunk full = .skip :=
    if_neg fun both => oneLine (List.mem_of_getLast? both.2)
  have ink : ∀ b ∈ (rtrim (tail ++ [10])).head?, isspace b = false := by
    rw [rtrim_space tail (by decide)]
    refine rtrim_head fun b first => ?_
    rcases left with rfl | rfl | rfl
    · cases first
    · cases first
      decide
    · cases first
      decide
  have rest : readChunk (tail ++ [10]) = .skip ∧ 10 ∉ tail ∧ tail.length ≤ 1 := by
    rcases left with rfl | rfl | rfl
    · exact ⟨by decide, by simp, by simp⟩
    · exact ⟨by decide, by simp, by simp⟩
    · exact ⟨by decide, by simp, by simp⟩
  obtain ⟨skipped, none, short⟩ := rest
  have plain : Plain (tail ++ [10]) := by
    refine ⟨?_, ?_, ink⟩
    · rw [List.length_append, List.length_singleton]
      omega
    · rwa [List.dropLast_concat]
  refine ⟨[full, tail ++ [10]], fun more => ?_, fun chunk member => ?_, fun current more => ?_⟩
  · rw [List.append_assoc, List.append_assoc, chunks_full oneLine length, List.singleton_append,
      chunks_line none (by omega)]
    rfl
  · rcases List.mem_cons.mp member with rfl | second
    · exact ⟨by omega, fun newline => oneLine (List.dropLast_subset _ newline), rtrim_head first⟩
    · rw [List.mem_singleton.mp second]
      exact plain
  · rw [List.map_cons, List.map_singleton, unended, skipped]
    rfl

/-! ## The lines of keys and headers -/

theorem quoteFor_quote (value : CString) : quoteFor value = 39 ∨ quoteFor value = 34 := by
  unfold quoteFor
  split
  · exact .inr rfl
  · exact .inl rfl

/-- The text of the line of a key. -/
def keyText (key : KeydataT) : List UInt8 :=
  key.id.bytes ++ 61 :: (quoteFor key.value :: key.value.bytes ++ [quoteFor key.value])

theorem keyLine_eq (key : KeydataT) : keyLine key = keyText key ++ [10] := by
  simp [keyLine, keyText]

theorem keyText_length (key : KeydataT) :
    (keyText key).length = key.id.length + key.value.length + 3 := by
  simp [keyText, CString.length]
  omega

theorem headerLine_eq (id : CString) : headerLine id = (91 :: id.bytes ++ [93]) ++ [10] := by
  simp [headerLine]

theorem keyText_nonNul (key : KeydataT) : 0 ∉ keyText key := by
  have quote := (quote_other (quoteFor_quote key.value)).1
  have name : 0 ∉ key.id.bytes := fun nul => key.id.nonNul 0 nul rfl
  have value : 0 ∉ key.value.bytes := fun nul => key.value.nonNul 0 nul rfl
  simp [keyText, name, value, quote.symm]

/-- The line of a key fits into the line buffer. -/
def lineFits (key : KeydataT) : Bool := decide (key.id.length + key.value.length + 4 ≤ 95)

theorem rtrim_fixed {convert : UInt8 → UInt8} {text : List UInt8} (same : text.map convert = text) :
    (rtrim text).map convert = rtrim text := by
  obtain ⟨tail, whole⟩ := rtrim_start text
  rw [← whole, List.map_append] at same
  have front := (List.append_inj same (List.length_map _)).1
  exact front

/-- What the line of a loaded key brings. -/
def rereadKey (key : KeydataT) : Reading :=
  if lineFits key = true ∧ 2 ≤ (rtrim key.id.bytes).length then
    .key (rtrim key.id.bytes) key.value.bytes
  else .skip

/-- What the header of a loaded section brings. -/
def rereadId (id : CString) : Reading :=
  if 2 ≤ (rtrim id.bytes).length then .header (rtrim id.bytes) else .skip

theorem unquoted_quoted {q : UInt8} (quote : q = 39 ∨ q = 34) (value : List UInt8) :
    unquoted (dropBlank (q :: value ++ [q])) = value := by
  have ink := (quote_other quote).2.2
  rw [List.cons_append, dropBlank_cons, ink, if_neg Bool.false_ne_true, unquoted_cons,
    ← List.cons_append, if_pos ⟨quote, List.getLast?_concat⟩, List.dropLast_concat]

theorem readText_key {key : KeydataT} (loaded : LoadedKey key.id.bytes key.value.bytes) :
    readText (keyText key) =
      if (rtrim key.id.bytes).length < 2 then .skip
      else .key (rtrim key.id.bytes) key.value.bytes := by
  have long := loaded.long
  have short := loaded.short
  have within := rtrim_length_le key.id.bytes
  have nonempty : key.id.bytes ≠ [] := List.ne_nil_of_length_pos (by omega)
  have first := List.head?_eq_some_head nonempty
  have start : (keyText key).head? = some (key.id.bytes.head nonempty) := by
    rw [keyText, List.head?_append_of_ne_nil _ nonempty, first]
  rw [readText_alnum start (loaded.first _ first), keyText, readAssignment_equals loaded.noEquals,
    unquoted_quoted (quoteFor_quote key.value), List.take_of_length_le (by omega),
    rtrim_fixed loaded.lower]

theorem keyText_oneLine {key : KeydataT} (loaded : LoadedKey key.id.bytes key.value.bytes) :
    10 ∉ keyText key := by
  have quote := (quote_other (quoteFor_quote key.value)).2.1
  simp [keyText, loaded.oneLine.1, loaded.oneLine.2, quote.symm]

theorem keyText_first {key : KeydataT} (loaded : LoadedKey key.id.bytes key.value.bytes)
    (rest : List UInt8) : ∀ b ∈ (key.id.bytes ++ rest).head?, isspace b = false := by
  have long := loaded.long
  have nonempty : key.id.bytes ≠ [] := List.ne_nil_of_length_pos (by omega)
  intro b first
  rw [List.head?_append_of_ne_nil _ nonempty] at first
  exact isspace_of_isalnum (loaded.first b first)

/-- The line that is saved for a loaded key. -/
theorem key_readsBack {key : KeydataT} (loaded : LoadedKey key.id.bytes key.value.bytes) :
    ReadsBack (keyLine key) (rereadKey key) := by
  have quote := quoteFor_quote key.value
  have oneLine := keyText_oneLine loaded
  have length := keyText_length key
  have bound : key.id.length + key.value.length + 2 ≤ 95 := loaded.fits
  have text := readText_key loaded
  rw [keyLine_eq]
  unfold rereadKey
  by_cases fits : lineFits key = true
  · have reading : (if lineFits key = true ∧ 2 ≤ (rtrim key.id.bytes).length then
        Reading.key (rtrim key.id.bytes) key.value.bytes else .skip) = readText (keyText key) := by
      rw [text]
      by_cases thin : (rtrim key.id.bytes).length < 2
      · rw [if_pos thin, if_neg (fun both => Nat.not_le_of_lt thin both.2)]
      · rw [if_neg thin, if_pos ⟨fits, Nat.le_of_not_lt thin⟩]
    rw [reading]
    have small := of_decide_eq_true fits
    refine readsBack_text oneLine (keyText_nonNul key) (by omega) (keyText_first loaded _) ?_
    intro b last
    have closing : (keyText key).getLast? = some (quoteFor key.value) := by
      simp [keyText, List.getLast?_append, List.getLast?_cons]
    rw [closing] at last
    cases last
    exact (quote_other quote).2.2
  · rw [if_neg (fun both => fits both.1)]
    have large : ¬ key.id.length + key.value.length + 4 ≤ 95 := fun small =>
      fits (decide_eq_true small)
    -- A text of 95 bytes leaves its newline to the next call, one of 96 also its quote.
    by_cases last : key.id.length + key.value.length + 3 = 95
    · exact readsBack_cut oneLine (by omega) (keyText_first loaded _) (.inl rfl)
    · have split : keyText key =
          (key.id.bytes ++ 61 :: quoteFor key.value :: key.value.bytes) ++ [quoteFor key.value] := by
        simp [keyText]
      rw [split] at oneLine length ⊢
      rw [List.length_append, List.length_singleton] at length
      rw [List.append_assoc]
      refine readsBack_cut (fun newline => oneLine (List.mem_append_left _ newline)) (by omega)
        (keyText_first loaded _) (.inr ?_)
      exact quote.imp (congrArg (fun q => [q])) (congrArg (fun q => [q]))

theorem header_readsBack {id : CString} (loaded : LoadedId id.bytes) :
    ReadsBack (headerLine id) (rereadId id) := by
  have short := loaded.short
  have within := rtrim_length_le id.bytes
  have text : readText (91 :: id.bytes ++ [93]) = rereadId id := by
    rw [readText_header]
    unfold readHeader rereadId
    by_cases thin : (rtrim id.bytes).length < 2
    · rw [if_pos thin, if_neg (Nat.not_le_of_lt thin)]
    · rw [if_neg thin, if_pos (Nat.le_of_not_lt thin), ltrim_ink (rtrim_head loaded.first),
        List.take_of_length_le (by omega), rtrim_fixed loaded.upper]
  rw [headerLine_eq, ← text]
  refine readsBack_text ?_ ?_ ?_ ?_ ?_
  · simp [loaded.oneLine]
  · have nonNul := id.nonNul 0
    simpa using nonNul
  · simp
    omega
  · intro b first
    cases first
    decide
  · intro b last
    rw [List.getLast?_concat] at last
    cases last
    decide

/-! ## Reading back a file -/

theorem outline_congr {a b : List Reading} (same : ∀ current, outline current a = outline current b)
    (reading : Reading) (current : Group) :
    outline current (reading :: a) = outline current (reading :: b) := by
  cases reading with
  | skip => exact same current
  | header id => exact congrArg (current :: ·) (same _)
  | key id value => exact same _

/-- The readings of the lines of a file make its sections. -/
theorem load_back (stack : Memory UInt8) {lines : List (List UInt8)} {readings : List Reading}
    (back : List.Forall₂ ReadsBack lines readings) :
    (loadKeyfile stack lines.flatten).map groupOf = outline ⟨[42], []⟩ readings := by
  have taken : (∀ chunk ∈ chunks lines.flatten, Plain chunk) ∧
      ∀ current, outline current ((chunks lines.flatten).map readChunk) =
        outline current readings := by
    induction back with
    | nil => exact ⟨nofun, fun _ => rfl⟩
    | cons first rest ih =>
        obtain ⟨taken, split, plain, read⟩ := first
        rw [List.flatten_cons, split]
        refine ⟨List.forall_mem_append.mpr ⟨plain, ih.1⟩, fun current => ?_⟩
        rw [List.map_append, read]
        exact outline_congr ih.2 _ current
  rw [← taken.2]
  exact load_outline ⟨stack, [], rootSection⟩
    fun chunk member mem => parseLine_chunk (taken.1 chunk member) mem

/-- The readings of the lines of a section. -/
def savedReadings (group : KeysectionT) : List Reading :=
  rereadId group.id :: group.keys.map rereadKey

/-- Sections with loaded names and keys. -/
structure LoadedSections (t : List KeysectionT) : Prop where
  ids : ∀ group ∈ t, LoadedId group.id.bytes
  keys : ∀ group ∈ t, ∀ key ∈ group.keys, LoadedKey key.id.bytes key.value.bytes

theorem savedLines_readsBack {t : List KeysectionT} (loaded : LoadedSections t) :
    List.Forall₂ ReadsBack (savedLines t) (t.flatMap savedReadings) := by
  have back : ∀ group ∈ t, List.Forall₂ ReadsBack
      (headerLine group.id :: group.keys.map keyLine) (savedReadings group) := by
    intro group member
    refine .cons (header_readsBack (loaded.ids group member)) ?_
    rw [List.forall₂_map_left_iff, List.forall₂_map_right_iff, List.forall₂_same]
    exact fun key stored => key_readsBack (loaded.keys group member key stored)
  unfold savedLines
  clear loaded
  induction t with
  | nil => exact .nil
  | cons group t ih =>
      rw [List.flatMap_cons, List.flatMap_cons]
      exact List.rel_append (back group List.mem_cons_self)
        (ih fun other member => back other (List.mem_cons_of_mem group member))

/-- A section as it comes back. -/
def resaved (group : KeysectionT) : Group :=
  ⟨group.id.bytes, (group.keys.filterMap fun key => (rereadKey key).assignment?).reverse⟩

theorem outline_rereadKeys (keys : List KeydataT) (current : Group) (more : List Reading) :
    outline current (keys.map rereadKey ++ more) =
      outline ⟨current.id, (keys.filterMap fun key => (rereadKey key).assignment?).reverse ++
        current.keys⟩ more := by
  induction keys generalizing current with
  | nil => rfl
  | cons key keys ih =>
      rw [List.map_cons, List.cons_append, List.filterMap_cons]
      unfold rereadKey
      split
      · refine (ih _).trans ?_
        simp [Reading.assignment?, rereadKey]
      · exact ih current

/-- Where no header is lost, every section comes back. -/
theorem outline_saved {rest : List KeysectionT}
    (headers : ∀ group ∈ rest, rereadId group.id = .header group.id.bytes) (current : Group) :
    outline current (rest.flatMap savedReadings) = current :: rest.map resaved := by
  induction rest generalizing current with
  | nil => rfl
  | cons group rest ih =>
      have later := ih fun other member => headers other (List.mem_cons_of_mem group member)
      rw [List.flatMap_cons, savedReadings, headers group List.mem_cons_self, List.cons_append]
      refine congrArg (current :: ·) ?_
      rw [outline_rereadKeys, later, List.append_nil]
      rfl

/-- What comes back of the sections of a loaded file. -/
theorem load_saved (stack : Memory UInt8) {root : KeysectionT} {rest : List KeysectionT}
    (loaded : LoadedSections (root :: rest)) (star : root.id.bytes = [42]) :
    (loadKeyfile stack (saveKeyfile (root :: rest))).map groupOf =
      outline (resaved root) (rest.flatMap savedReadings) := by
  have lost : rereadId root.id = .skip := by
    unfold rereadId
    rw [star]
    rfl
  refine (load_back stack (savedLines_readsBack loaded)).trans ?_
  rw [List.flatMap_cons, savedReadings, lost, List.cons_append]
  refine (outline_rereadKeys root.keys ⟨[42], []⟩ _).trans ?_
  rw [List.append_nil, resaved, star]

end CprFormal.Keyfile.Saved
