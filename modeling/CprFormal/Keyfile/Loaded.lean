import CprFormal.Keyfile.Outline

/-!
# What `load_keyfile` can yield

Whatever the file and whatever the stack held before, the names of sections and keys
are converted, bounded and on one line, and a key with its value comes from a line of
the buffer.  A line that begins with white space is looked at behind its end, so
nothing more is known of a name than that it begins without white space.
-/

namespace CprFormal.Keyfile.Loaded

open CprFormal.Library.FlatMemory CprFormal.Library.Lists
open CprFormal.Strchar.Ctype CprFormal.Strchar.Strlen
open CprFormal.Keyfile.Model CprFormal.Keyfile.Chunks CprFormal.Keyfile.Grammar
open CprFormal.Keyfile.Outline

/-- The name of a section that was loaded. -/
structure LoadedId (id : List UInt8) : Prop where
  short : id.length ≤ 32
  upper : id.map toupper = id
  first : ∀ b ∈ id.head?, isspace b = false
  oneLine : 10 ∉ id

/-- A key that was loaded. -/
structure LoadedKey (id value : List UInt8) : Prop where
  long : 2 ≤ id.length
  short : id.length ≤ 32
  lower : id.map tolower = id
  first : ∀ b ∈ id.head?, isalnum b = true
  noEquals : 61 ∉ id
  oneLine : 10 ∉ id ∧ 10 ∉ value
  fits : id.length + value.length + 2 ≤ 95

/-- What one line can bring. -/
def LoadedReading : Reading → Prop
  | .skip => True
  | .header id => LoadedId id
  | .key id value => LoadedKey id value

theorem root_loaded : LoadedId [42] where
  short := by decide
  upper := by decide
  first b first := by
    cases first
    decide
  oneLine := by simp

theorem toupper_keeps {b c : UInt8} (converted : toupper b = c) (other : isalnum c = false) :
    b = c := by
  rcases toupper_cases b with same | ⟨_, alnum⟩
  · exact same.symm.trans converted
  · rw [converted, other] at alnum
    cases alnum

theorem tolower_keeps {b c : UInt8} (converted : tolower b = c) (other : isalnum c = false) :
    b = c := by
  rcases tolower_cases b with same | ⟨_, alnum⟩
  · exact same.symm.trans converted
  · rw [converted, other] at alnum
    cases alnum

theorem isspace_toupper (b : UInt8) : isspace (toupper b) = isspace b := by
  rcases toupper_cases b with same | ⟨before, after⟩
  · rw [same]
  · rw [isspace_of_isalnum before, isspace_of_isalnum after]

theorem isalnum_tolower {b : UInt8} (alnum : isalnum b = true) : isalnum (tolower b) = true := by
  rcases tolower_cases b with same | ⟨_, after⟩
  · rwa [same]
  · exact after

theorem map_toupper_fixed (text : List UInt8) :
    (text.map toupper).map toupper = text.map toupper := by
  rw [List.map_map]
  exact List.map_congr_left fun b _ => toupper_toupper b

theorem map_tolower_fixed (text : List UInt8) :
    (text.map tolower).map tolower = text.map tolower := by
  rw [List.map_map]
  exact List.map_congr_left fun b _ => tolower_tolower b

/-- A text that may be cut by a NUL behind its start. -/
theorem textAt_cut {mem : Memory UInt8} {i k limit : Nat} {w : List UInt8}
    (reads : Reads (fun j => mem (i + j)) w) (some_ : 0 < limit) :
    ∃ n, n ≤ limit ∧ (textAt (mem.set (i + k) 0) i limit).bytes = w.take n := by
  by_cases inside : k ≤ w.length
  · have split : w.take k ++ w.drop k = w := List.take_append_drop k w
    have length : (w.take k).length = k := List.length_take_of_le inside
    rw [← split] at reads
    have cut := reads.cut_at
    rw [length] at cut
    refine ⟨min (max 1 limit) k, by omega, ?_⟩
    rw [textAt_bytes cut, List.take_take]
  · have kept : Reads (fun j => (mem.set (i + k) 0) (i + j)) w :=
      reads.congr fun j below => mem.set_other 0 (by omega)
    exact ⟨max 1 limit, by omega, textAt_bytes kept limit⟩

/-- A name that was cut from a text and converted. -/
theorem loadedId_of_take {text : List UInt8} (ink : ∀ b ∈ text.head?, isspace b = false)
    (oneLine : 10 ∉ text) {n : Nat} (short : n ≤ 32) :
    LoadedId ((text.take n).map toupper) where
  short := by
    rw [List.length_map, List.length_take]
    omega
  upper := map_toupper_fixed _
  first b first := by
    rw [List.head?_map] at first
    obtain ⟨c, head, rfl⟩ := Option.map_eq_some_iff.mp first
    rw [isspace_toupper]
    refine ink c ?_
    rw [List.head?_take] at head
    split at head
    · cases head
    · exact head
  oneLine newline := by
    obtain ⟨c, member, converted⟩ := List.mem_map.mp newline
    rw [toupper_keeps converted (by decide)] at member
    exact oneLine (List.mem_of_mem_take member)

theorem parseHeader_loaded {mem : Memory UInt8} {lp : Nat} {b : UInt8} {text : List UInt8}
    (reads : Reads (fun j => mem (lp + j)) (b :: text)) (short : text.length < 96)
    (oneLine : 10 ∉ text) (len : Nat) : LoadedReading (parseHeader mem lp len).2.reading := by
  have rest : Reads (fun j => mem (lp + 1 + j)) text := by
    have behind := reads.behind (v := [b])
    simpa only [List.length_singleton, Nat.add_assoc] using behind
  obtain ⟨_, name⟩ := skipSpace_reads rest short
  have sub : (ltrim text).Sublist text := List.dropWhile_sublist _
  unfold parseHeader
  dsimp only
  split
  · trivial
  · obtain ⟨n, limit, cut⟩ := textAt_cut name (by decide : 0 < 32)
    have id := loadedId_of_take (fun b => ltrim_head) (fun newline => oneLine (sub.subset newline))
      limit
    rw [← cut] at id
    exact id

theorem readAssignment_loaded {text : List UInt8} (alnum : ∀ b ∈ text.head?, isalnum b = true)
    (oneLine : 10 ∉ text) (short : text.length ≤ 94) : LoadedReading (readAssignment text) := by
  obtain ⟨split, before, _⟩ := takeWhile_split 61 text
  unfold readAssignment
  generalize text.takeWhile (· != 61) = key at split before ⊢
  generalize text.dropWhile (· != 61) = rest at split ⊢
  subst split
  cases rest with
  | nil => trivial
  | cons b body =>
      dsimp only
      split
      · trivial
      · rename_i long
        obtain ⟨tail, whole⟩ := rtrim_start key
        have value : (unquoted (dropBlank body)).Sublist body :=
          (unquoted_sublist _).trans (dropBlank_sublist body)
        have bytes := value.length_le
        have length := rtrim_length_le key
        have named : ∀ c ∈ (rtrim key).take 32, c ∈ key := fun c member =>
          (rtrim_start key).subset (List.mem_of_mem_take member)
        rw [List.length_append, List.length_cons] at short
        refine ⟨?_, ?_, map_tolower_fixed _, ?_, ?_, ⟨?_, ?_⟩, ?_⟩
        · rw [List.length_map, List.length_take]
          omega
        · rw [List.length_map, List.length_take]
          omega
        · intro c first
          rw [List.head?_map] at first
          obtain ⟨d, head, rfl⟩ := Option.map_eq_some_iff.mp first
          refine isalnum_tolower (alnum d ?_)
          have start : (rtrim key).head? = some d := by
            rwa [List.head?_take, if_neg (by decide)] at head
          rw [← whole, List.head?_append, List.head?_append, start]
          rfl
        · intro equals
          obtain ⟨c, member, converted⟩ := List.mem_map.mp equals
          exact before c (named c member) (tolower_keeps converted (by decide))
        · intro newline
          obtain ⟨c, member, converted⟩ := List.mem_map.mp newline
          rw [tolower_keeps converted (by decide)] at member
          exact oneLine (List.mem_append_left _ (named 10 member))
        · exact fun newline => oneLine (by simp [value.subset newline])
        · rw [List.length_map, List.length_take]
          omega

/-- What a line brings, whatever is behind it in the buffer. -/
theorem parseLine_loaded {chunk : List UInt8} (short : chunk.length ≤ 95)
    (oneLine : 10 ∉ chunk.dropLast) (mem : Memory UInt8) :
    LoadedReading (parseLine (mem.write 0 (chunk ++ [0]))).2.reading := by
  have reads := reads_write_bytes mem chunk
  have start : chunk.takeWhile (· != 0) <+: chunk := List.takeWhile_prefix _
  have fits := start.length_le
  by_cases newline : (chunk.takeWhile (· != 0)).getLast? = some 10
  · obtain ⟨text, ended⟩ := List.getLast?_eq_some_iff.mp newline
    rw [ended] at reads start fits
    rw [List.length_append, List.length_singleton] at fits
    have inside : 10 ∉ text := by
      intro member
      obtain ⟨tail, rfl⟩ := start
      refine oneLine ?_
      rw [List.append_assoc, List.singleton_append,
        List.dropLast_append_of_ne_nil (List.cons_ne_nil _ _)]
      exact List.mem_append_left _ member
    obtain ⟨after, _, _, kept, lengths, parsed⟩ := parseLine_ended reads (by omega)
    generalize skipSpace after 0 = lp at kept lengths parsed
    have within := rtrim_length_le text
    have sub : (ltrim (rtrim text)).Sublist text :=
      (List.dropWhile_sublist _).trans (rtrim_start text).sublist
    rw [parsed]
    generalize ltrim (rtrim text) = body at kept lengths sub
    have one : 10 ∉ body := fun member => inside (sub.subset member)
    split
    · trivial
    · rename_i some_
      cases body with
      | nil => exact absurd kept.stop some_
      | cons b rest =>
          have first : after lp = b := kept.head rfl
          rw [List.length_cons] at lengths
          -- The bracket that is tested may lie behind the text; the name does not.
          split
          · exact parseHeader_loaded kept (by omega) (List.not_mem_of_not_mem_cons one) _
          · split
            · trivial
            · rename_i alnum
              rw [parseAssignment_reads kept (by rw [List.length_cons]; omega)]
              refine readAssignment_loaded (fun c head => ?_) one
                (by rw [List.length_cons]; omega)
              cases head
              simpa [first] using alnum
  · rw [parseLine_unended reads (by omega) newline]
    trivial

/-! ## Files -/

/-- The readings of the lines of a file. -/
theorem load_readings (s : Loading) {lines : List (List UInt8)}
    (chunk : ∀ line ∈ lines, line.length ≤ 95 ∧ 10 ∉ line.dropLast) :
    ∃ readings, (∀ reading ∈ readings, LoadedReading reading) ∧
      (lines.foldl loadLine s).sections.map groupOf =
        s.before.map groupOf ++ outline (groupOf s.current) readings := by
  induction lines generalizing s with
  | nil => exact ⟨[], nofun, by simp [Loading.sections, outline]⟩
  | cons line lines ih =>
      obtain ⟨short, oneLine⟩ := chunk line List.mem_cons_self
      have first := parseLine_loaded short oneLine s.mem
      obtain ⟨readings, loaded, rest⟩ := ih (loadLine s line) fun other member =>
        chunk other (List.mem_cons_of_mem line member)
      refine ⟨_ :: readings, List.forall_mem_cons.mpr ⟨first, loaded⟩, ?_⟩
      rw [List.foldl_cons, rest, loadLine_outline]

theorem outline_keys {current : Group} {readings : List Reading}
    (keys : ∀ key ∈ current.keys, LoadedKey key.1 key.2)
    (loaded : ∀ reading ∈ readings, LoadedReading reading) :
    ∀ group ∈ outline current readings, ∀ key ∈ group.keys, LoadedKey key.1 key.2 := by
  induction readings generalizing current with
  | nil =>
      intro group member
      rw [List.mem_singleton.mp member]
      exact keys
  | cons reading readings ih =>
      have first := loaded reading List.mem_cons_self
      have rest := fun other member => loaded other (List.mem_cons_of_mem reading member)
      cases reading with
      | skip => exact ih keys rest
      | header id =>
          intro group member
          rcases List.mem_cons.mp member with rfl | later
          · exact keys
          · exact ih (fun _ none => absurd none List.not_mem_nil) rest group later
      | key id value => exact ih (List.forall_mem_cons.mpr ⟨first, keys⟩) rest

/-- The sections of every file: the root and sections with loaded names, and loaded
keys in all of them. -/
structure LoadedFile (sections : List Group) : Prop where
  ids : ∃ names, sections.map Group.id = [42] :: names ∧ ∀ id ∈ names, LoadedId id
  keys : ∀ group ∈ sections, ∀ key ∈ group.keys, LoadedKey key.1 key.2

theorem load_loaded (stack : Memory UInt8) (file : List UInt8) :
    LoadedFile ((loadKeyfile stack file).map groupOf) := by
  obtain ⟨readings, loaded, sections⟩ := load_readings ⟨stack, [], rootSection⟩
    fun chunk (member : chunk ∈ chunks file) => chunk_of_mem member
  have split : (loadKeyfile stack file).map groupOf = outline ⟨[42], []⟩ readings := sections
  rw [split]
  refine ⟨⟨_, outline_ids _ _, fun id member => ?_⟩, outline_keys (fun _ none => absurd none List.not_mem_nil) loaded⟩
  obtain ⟨reading, listed, header⟩ := List.mem_filterMap.mp member
  have known := loaded reading listed
  cases reading with
  | skip => cases header
  | header name =>
      cases header
      exact known
  | key name value => cases header

end CprFormal.Keyfile.Loaded
