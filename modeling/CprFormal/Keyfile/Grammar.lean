import Mathlib.Data.List.DropRight
import Mathlib.Data.List.Induction
import CprFormal.Keyfile.Chunks

/-!
# What a line of a key file says

The text of a line decides what `load_keyfile` takes from it, whatever the buffer
holds behind the text, as long as the line does not begin with white space.
-/

namespace CprFormal.Keyfile.Grammar

open CprFormal.Library.FlatMemory CprFormal.Library.Search CprFormal.Library.Lists
open CprFormal.Strchar.Ctype CprFormal.Strchar.Strlen
open CprFormal.Keyfile.Model CprFormal.Keyfile.Chunks

/-! ## Reading a text -/

/-- A text without the white space at its end. -/
def rtrim (text : List UInt8) : List UInt8 := text.rdropWhile isspace

/-- A text without the white space in front. -/
def ltrim (text : List UInt8) : List UInt8 := text.dropWhile isspace

/-- A text without one byte of white space in front. -/
def dropBlank : List UInt8 → List UInt8
  | [] => []
  | b :: rest => if isspace b then rest else b :: rest

/-- A value without the quotes around it; a quote alone is taken for both. -/
def unquoted : List UInt8 → List UInt8
  | [] => []
  | q :: rest =>
      if (q = 39 ∨ q = 34) ∧ (q :: rest).getLast? = some q then rest.dropLast else q :: rest

theorem dropBlank_cons (b : UInt8) (rest : List UInt8) :
    dropBlank (b :: rest) = if isspace b then rest else b :: rest := rfl

theorem unquoted_cons (q : UInt8) (rest : List UInt8) :
    unquoted (q :: rest) =
      if (q = 39 ∨ q = 34) ∧ (q :: rest).getLast? = some q then rest.dropLast else q :: rest :=
  rfl

/-- What a line says, in bytes. -/
inductive Reading where
  | skip
  | header (id : List UInt8)
  | key (id value : List UInt8)
  deriving DecidableEq

/-- The section that begins. -/
def Reading.header? : Reading → Option (List UInt8)
  | header id => some id
  | _ => none

/-- The key that is made. -/
def Reading.assignment? : Reading → Option (List UInt8 × List UInt8)
  | key id value => some (id, value)
  | _ => none

/-- What stands between the brackets. -/
def readHeader (inner : List UInt8) : Reading :=
  if (rtrim inner).length < 2 then .skip
  else .header (((ltrim (rtrim inner)).take 32).map toupper)

/-- What stands around the first equals sign. -/
def readAssignment (text : List UInt8) : Reading :=
  match text.dropWhile (· != 61) with
  | [] => .skip
  | _ :: body =>
      let name := rtrim (text.takeWhile (· != 61))
      if name.length < 2 then .skip
      else .key ((name.take 32).map tolower) (unquoted (dropBlank body))

/-- A text that neither begins nor ends with white space. -/
def readText (text : List UInt8) : Reading :=
  match text with
  | [] => .skip
  | b :: rest =>
      if b = 91 ∧ rest.getLast? = some 93 then readHeader rest.dropLast
      else if !isalnum b then .skip
      else readAssignment (b :: rest)

theorem readText_cons (b : UInt8) (rest : List UInt8) :
    readText (b :: rest) =
      if b = 91 ∧ rest.getLast? = some 93 then readHeader rest.dropLast
      else if !isalnum b then .skip
      else readAssignment (b :: rest) :=
  rfl

theorem readText_header (inner : List UInt8) :
    readText (91 :: inner ++ [93]) = readHeader inner := by
  rw [List.cons_append, readText_cons, if_pos ⟨rfl, List.getLast?_concat⟩, List.dropLast_concat]

theorem readText_alnum {text : List UInt8} {b : UInt8} (first : text.head? = some b)
    (alnum : isalnum b = true) : readText text = readAssignment text := by
  cases text with
  | nil => cases first
  | cons c rest =>
      cases first
      have other : b ≠ 91 := by
        rintro rfl
        exact absurd alnum (by decide)
      rw [readText_cons, if_neg (fun both => other both.1), alnum, if_neg (by decide)]

theorem readAssignment_equals {key : List UInt8} (noEquals : 61 ∉ key) (body : List UInt8) :
    readAssignment (key ++ 61 :: body) =
      if (rtrim key).length < 2 then .skip
      else .key (((rtrim key).take 32).map tolower) (unquoted (dropBlank body)) := by
  have before : ∀ b ∈ key, (b != 61) = true := fun b member =>
    bne_iff_ne.mpr fun equals => noEquals (equals ▸ member)
  unfold readAssignment
  rw [List.dropWhile_append_of_pos before, List.takeWhile_append_of_pos before,
    List.dropWhile_cons, List.takeWhile_cons]
  simp only [bne_self_eq_false, Bool.false_eq_true, if_false, List.append_nil]

end CprFormal.Keyfile.Grammar

namespace CprFormal.Keyfile.Model.Entry

/-- The bytes of an entry. -/
def reading : Entry → Keyfile.Grammar.Reading
  | skip => .skip
  | header id => .header id.bytes
  | key id value => .key id.bytes value.bytes

end CprFormal.Keyfile.Model.Entry

namespace CprFormal.Keyfile.Grammar

open CprFormal.Library.FlatMemory CprFormal.Library.Search CprFormal.Library.Lists
open CprFormal.Strchar.Ctype CprFormal.Strchar.Strlen
open CprFormal.Keyfile.Model CprFormal.Keyfile.Chunks

/-! ## Trimming and headers -/

theorem rtrim_space (text : List UInt8) {b : UInt8} (space : isspace b = true) :
    rtrim (text ++ [b]) = rtrim text :=
  List.rdropWhile_concat_pos _ _ _ space

theorem rtrim_ink (text : List UInt8) {b : UInt8} (ink : isspace b = false) :
    rtrim (text ++ [b]) = text ++ [b] :=
  List.rdropWhile_concat_neg _ _ _ (by simp [ink])

theorem rtrim_start (text : List UInt8) : rtrim text <+: text := List.rdropWhile_prefix _ _

theorem rtrim_length_le (text : List UInt8) : (rtrim text).length ≤ text.length :=
  (rtrim_start text).length_le

theorem rtrim_blanks (text : List UInt8) {blanks : List UInt8}
    (blank : ∀ b ∈ blanks, isspace b = true) : rtrim (text ++ blanks) = rtrim text := by
  induction blanks using List.reverseRecOn with
  | nil => rw [List.append_nil]
  | append_singleton blanks b ih =>
      rw [← List.append_assoc, rtrim_space _ (blank b (by simp))]
      exact ih fun c member => blank c (List.mem_append_left _ member)

theorem rtrim_last {text : List UInt8} (ink : ∀ b ∈ text.getLast?, isspace b = false) :
    rtrim text = text := by
  cases text using List.reverseRecOn with
  | nil => rfl
  | append_singleton text b => exact rtrim_ink text (ink b List.getLast?_concat)

/-- White space is only taken off behind the last byte that is none. -/
theorem rtrim_behind (front : List UInt8) {b : UInt8} (ink : isspace b = false)
    (text : List UInt8) : rtrim ((front ++ [b]) ++ text) = (front ++ [b]) ++ rtrim text := by
  induction text using List.reverseRecOn with
  | nil =>
      have none : rtrim [] = [] := rfl
      rw [none, List.append_nil, rtrim_ink front ink]
  | append_singleton text c ih =>
      rw [← List.append_assoc]
      cases space : isspace c with
      | true => rw [rtrim_space _ space, rtrim_space _ space, ih]
      | false => rw [rtrim_ink _ space, rtrim_ink _ space, List.append_assoc]

theorem rtrim_head {text : List UInt8} (ink : ∀ b ∈ text.head?, isspace b = false) :
    ∀ b ∈ (rtrim text).head?, isspace b = false := by
  intro b first
  obtain ⟨tail, whole⟩ := rtrim_start text
  refine ink b ?_
  rw [← whole, List.head?_append, first]
  rfl

/-- The loop that trims a line cuts it to its text and stops at the last byte. -/
theorem trimRight_reads {mem : Memory UInt8} {line : List UInt8} (reads : Reads mem line) :
    ∃ after, trimRight mem line.length = (after, (rtrim line).length - 1) ∧
      Reads after (rtrim line) := by
  induction line using List.reverseRecOn generalizing mem with
  | nil => exact ⟨mem, rfl, reads⟩
  | append_singleton line b ih =>
      have char : mem line.length = b := by
        rw [reads.char line.length (by simp)]
        simp
      rw [List.length_append, List.length_singleton, trimRight, char]
      cases space : isspace b with
      | true =>
          rw [if_pos rfl, rtrim_space line space]
          exact ih reads.cut_append
      | false =>
          rw [if_neg Bool.false_ne_true, rtrim_ink line space]
          exact ⟨mem, by simp, reads⟩

theorem ltrim_split (text : List UInt8) : text.takeWhile isspace ++ ltrim text = text :=
  List.takeWhile_append_dropWhile

theorem ltrim_head {text : List UInt8} {b : UInt8} (first : (ltrim text).head? = some b) :
    isspace b = false := by
  have none_blank := List.head?_dropWhile_not isspace text
  unfold ltrim at first
  rw [first] at none_blank
  exact none_blank

/-- Nothing is taken off a text that begins without white space. -/
theorem ltrim_ink {text : List UInt8} (ink : ∀ b ∈ text.head?, isspace b = false) :
    ltrim text = text := by
  cases text with
  | nil => rfl
  | cons b text =>
      unfold ltrim
      rw [List.dropWhile_cons, ink b rfl, if_neg Bool.false_ne_true]

/-- The loop that skips white space stops where the text begins. -/
theorem skipSpace_blanks {mem : Memory UInt8} {i : Nat} {blanks text : List UInt8}
    (reads : Reads (fun j => mem (i + j)) (blanks ++ text))
    (blank : ∀ b ∈ blanks, isspace b = true) (ink : ∀ b ∈ text.head?, isspace b = false)
    (short : blanks.length < 96) : skipSpace mem i = i + blanks.length := by
  have found : searchUp (fun j => !isspace (mem j)) sizeofLinebuf i =
      (i + blanks.length, true) := by
    refine searchUp_eq (Nat.le_add_right _ _) (by unfold sizeofLinebuf; omega) ?_ ?_
    · have start : mem (i + blanks.length) = text.head?.getD 0 := by
        have behind := reads.behind
        cases text with
        | nil => exact behind.stop
        | cons b text => exact behind.char 0 (Nat.zero_lt_succ _)
      rw [start]
      cases first : text.head? with
      | none => rfl
      | some b =>
          change (!isspace b) = true
          rw [ink b first]
          rfl
    · intro k low high
      obtain ⟨j, rfl⟩ := Nat.exists_eq_add_of_le low
      have inside : j < blanks.length := by omega
      have char := reads.char j (by rw [List.length_append]; omega)
      rw [List.getElem_append_left inside] at char
      rw [char, blank _ (List.getElem_mem inside)]
      rfl
  unfold skipSpace
  rw [found]

theorem skipSpace_reads {mem : Memory UInt8} {i : Nat} {text : List UInt8}
    (reads : Reads (fun j => mem (i + j)) text) (short : text.length < 96) :
    skipSpace mem i + (ltrim text).length = i + text.length ∧
    Reads (fun j => mem (skipSpace mem i + j)) (ltrim text) := by
  have split := ltrim_split text
  have lengths := congrArg List.length split
  rw [List.length_append] at lengths
  rw [← split] at reads
  have skipped := skipSpace_blanks reads (fun b => List.mem_takeWhile_imp)
    (fun b first => ltrim_head first) (by omega)
  have behind := reads.behind
  rw [skipped]
  refine ⟨by omega, ?_⟩
  simpa only [Nat.add_assoc] using behind

/-- The loop that goes back over the blanks before a closing bracket. -/
theorem backOverSpace_inner {mem : Memory UInt8} {lp : Nat} {inner : List UInt8}
    (char : ∀ j (h : j < inner.length), mem (lp + (j + 1)) = inner[j]) :
    backOverSpace mem lp (inner.length + 1) = max 1 (rtrim inner).length := by
  induction inner using List.reverseRecOn with
  | nil => rfl
  | append_singleton inner b ih =>
      have last : mem (lp + (inner.length + 1)) = b := by
        rw [char inner.length (by simp)]
        simp
      have before : ∀ j (h : j < inner.length), mem (lp + (j + 1)) = inner[j] := fun j h => by
        rw [char j (by rw [List.length_append]; omega), List.getElem_append_left h]
      rw [List.length_append, List.length_singleton, backOverSpace, last]
      cases space : isspace b with
      | true =>
          rw [if_pos rfl, rtrim_space inner space]
          exact ih before
      | false =>
          rw [if_neg Bool.false_ne_true, rtrim_ink inner space]
          simp

theorem textAt_bytes {mem : Memory UInt8} {i : Nat} {w : List UInt8}
    (reads : Reads (fun j => mem (i + j)) w) (limit : Nat) :
    (textAt mem i limit).bytes = w.take (max 1 limit) := by
  change mem.slice i (cprStrlen (fun j => mem (i + j)) limit) = w.take (max 1 limit)
  rw [reads.strlen]
  apply List.ext_getElem
  · rw [Memory.slice_length, List.length_take, Nat.min_comm]
  · intro j low high
    rw [Memory.getElem_slice, List.getElem_take]
    exact reads.char j _

theorem ltrim_rtrim_ne_nil {text : List UInt8} (some_ink : rtrim text ≠ []) :
    ltrim (rtrim text) ≠ [] := by
  intro all_blank
  have blank := List.dropWhile_eq_nil_iff.mp all_blank
  exact List.rdropWhile_last_not isspace text some_ink (blank _ (List.getLast_mem some_ink))

/-- The name behind the bracket and its blanks, once a NUL is stored behind it. -/
theorem header_name {mem : Memory UInt8} {blanks name rest : List UInt8}
    (reads : Reads mem ([91] ++ (blanks ++ (name ++ rest))))
    (blank : ∀ b ∈ blanks, isspace b = true) (named : name ≠ [])
    (ink : ∀ b ∈ name.head?, isspace b = false) (short : blanks.length < 96) :
    skipSpace mem 1 = 1 + blanks.length ∧
    Reads (fun j => (mem.set (1 + (blanks.length + name.length)) 0) (1 + blanks.length + j))
      name := by
  constructor
  · refine skipSpace_blanks reads.behind blank (fun b first => ink b ?_) short
    rwa [List.head?_append_of_ne_nil _ named] at first
  · have front : [91] ++ (blanks ++ (name ++ rest)) = (([91] ++ blanks) ++ name) ++ rest := by
      simp
    rw [front] at reads
    have kept := reads.cut_append.behind
    simp only [List.length_append, List.length_singleton, Nat.add_assoc] at kept ⊢
    exact kept

/-- A header says what stands between its brackets. -/
theorem parseHeader_reads {mem : Memory UInt8} {inner : List UInt8}
    (reads : Reads mem (91 :: inner ++ [93])) (short : inner.length < 95) :
    (parseHeader mem 0 (inner.length + 1)).2.reading = readHeader inner := by
  have char (j : Nat) (h : j < inner.length) : mem (0 + (j + 1)) = inner[j] := by
    have here := reads.char (j + 1) (by simp; omega)
    rw [Nat.zero_add, here, List.getElem_append_left (by simpa using h)]
    rfl
  have back := backOverSpace_inner char
  unfold parseHeader readHeader
  dsimp only
  rw [back]
  by_cases thin : (rtrim inner).length < 2
  · rw [if_pos thin, if_pos (by omega)]
    rfl
  · rw [if_neg thin, if_neg (by omega), Nat.max_eq_right (by omega)]
    obtain ⟨tail, whole⟩ := rtrim_start inner
    have split := ltrim_split (rtrim inner)
    have text : 91 :: inner ++ [93] =
        [91] ++ ((rtrim inner).takeWhile isspace ++ (ltrim (rtrim inner) ++ (tail ++ [93]))) := by
      rw [← List.append_assoc _ (ltrim _), split, ← List.append_assoc (rtrim inner), whole]
      rfl
    have lengths := congrArg List.length split
    rw [List.length_append] at lengths
    have within := rtrim_length_le inner
    rw [text] at reads
    obtain ⟨skipped, name⟩ := header_name reads (fun b => List.mem_takeWhile_imp)
      (ltrim_rtrim_ne_nil (List.ne_nil_of_length_pos (by omega))) (fun b => ltrim_head)
      (by omega)
    rw [lengths] at name
    rw [Nat.zero_add, skipped, Nat.add_sub_cancel_left, Nat.add_assoc,
      Nat.add_sub_cancel' (by omega)]
    exact congrArg Reading.header (congrArg (List.map toupper) (textAt_bytes name 32))

/-! ## Assignments -/

/-- The loop that looks for the equals sign stops there or at the end of the text. -/
theorem findEquals_reads {mem : Memory UInt8} {lp : Nat} {text : List UInt8}
    (reads : Reads (fun j => mem (lp + j)) text) (short : text.length < 96) :
    findEquals mem lp = lp + (text.takeWhile (· != 61)).length := by
  obtain ⟨split, before, behind⟩ := takeWhile_split 61 text
  generalize text.takeWhile (· != 61) = name at split before ⊢
  generalize text.dropWhile (· != 61) = rest at split behind
  subst split
  have found : searchUp (fun j => mem j == 0 || mem j == 61) sizeofLinebuf lp =
      (lp + name.length, true) := by
    rw [List.length_append] at short
    refine searchUp_eq (Nat.le_add_right _ _) (by unfold sizeofLinebuf; omega) ?_ ?_
    · cases rest with
      | nil =>
          have stop : mem (lp + name.length) = 0 := reads.behind.stop
          simp [stop]
      | cons b rest =>
          have equals : mem (lp + name.length) = b := reads.behind.char 0 (Nat.zero_lt_succ _)
          rw [behind b rfl] at equals
          simp [equals]
    · intro k low high
      obtain ⟨j, rfl⟩ := Nat.exists_eq_add_of_le low
      have inside : j < name.length := by omega
      have char := reads.char j (by rw [List.length_append]; omega)
      rw [List.getElem_append_left inside] at char
      have nonNul := reads.nonNul name[j] (List.mem_append_left _ (List.getElem_mem inside))
      simp [char, nonNul, before _ (List.getElem_mem inside)]
  unfold findEquals
  rw [found]

/-- The loop that goes back over the blanks behind a name. -/
theorem backOverKey_reads {mem : Memory UInt8} {lp : Nat} {name : List UInt8}
    (char : ∀ j (h : j < name.length), mem (lp + j) = name[j]) :
    backOverKey mem lp (name.length - 1) = lp + ((rtrim name).length - 1) := by
  induction name using List.reverseRecOn with
  | nil => rfl
  | append_singleton name b ih =>
      have last : mem (lp + name.length) = b := by
        rw [char name.length (by simp)]
        simp
      have before : ∀ j (h : j < name.length), mem (lp + j) = name[j] := fun j h => by
        rw [char j (by rw [List.length_append]; omega), List.getElem_append_left h]
      have later := ih before
      rw [List.length_append, List.length_singleton, Nat.add_sub_cancel]
      cases length : name.length with
      | zero =>
          have thin := rtrim_length_le (name ++ [b])
          rw [List.length_append, List.length_singleton, length] at thin
          rw [backOverKey]
          omega
      | succ n =>
          rw [length] at last later
          rw [backOverKey, last]
          cases space : isspace b with
          | true =>
              rw [if_pos rfl, rtrim_space name space]
              exact later
          | false =>
              rw [if_neg Bool.false_ne_true, rtrim_ink name space, List.length_append,
                List.length_singleton, length, Nat.add_sub_cancel]

/-- One blank in front of a value is passed over. -/
theorem dropBlank_reads {mem : Memory UInt8} {body : Nat} {value : List UInt8}
    (reads : Reads (fun j => mem (body + j)) value) :
    Reads (fun j => mem ((if mem body ≠ 0 ∧ isspace (mem body) then body + 1 else body) + j))
      (dropBlank value) := by
  cases value with
  | nil =>
      have stop : mem body = 0 := reads.stop
      rw [if_neg (fun blank => blank.1 stop)]
      exact reads
  | cons b value =>
      have first : mem body = b := reads.head rfl
      have nonNul : b ≠ 0 := reads.nonNul b List.mem_cons_self
      rw [first, dropBlank_cons]
      cases space : isspace b with
      | true =>
          rw [if_pos ⟨nonNul, rfl⟩, if_pos rfl]
          have rest := reads.behind (v := [b])
          simpa only [List.length_singleton, ← Nat.add_assoc] using rest
      | false =>
          rw [if_neg (by simp), if_neg Bool.false_ne_true]
          exact reads

theorem quote_other {q : UInt8} (quote : q = 39 ∨ q = 34) :
    q ≠ 0 ∧ q ≠ 10 ∧ isspace q = false := by
  rcases quote with rfl | rfl
  · decide
  · decide

/-- A quoted value loses its quotes and nothing else. -/
theorem unquote_quoted {mem : Memory UInt8} {body : Nat} {value : List UInt8} {q : UInt8}
    (reads : Reads (fun j => mem (body + j)) (q :: value ++ [q])) (quote : q = 39 ∨ q = 34)
    (short : value.length + 2 ≤ 96) :
    unquote mem body = (mem.set (body + (value.length + 1)) 0, body + 1) ∧
    Reads (fun j => (mem.set (body + (value.length + 1)) 0) (body + 1 + j)) value := by
  have length : (q :: value ++ [q]).length = value.length + 2 := by simp
  have len : cprStrlen (fun j => mem (body + j)) sizeofLinebuf = value.length + 2 := by
    rw [reads.strlen, length, sizeofLinebuf]
    omega
  have opening : mem body = q := reads.head rfl
  have closing : mem (body + (value.length + 1)) = q := by
    have last := reads.last (show ((q :: value) ++ [q]).getLast? = some q from
      List.getLast?_concat)
    rwa [length] at last
  have kept : (mem.set (body + (value.length + 1)) 0) body = q :=
    (mem.set_other 0 (by omega)).trans opening
  have nonNul := (quote_other quote).1
  constructor
  · unfold unquote
    rw [len, show body + (value.length + 2) - 1 = body + (value.length + 1) by omega]
    simp only [opening, closing, kept, quote, nonNul, ne_eq, not_false_eq_true, and_self, if_true]
  · have taken : (q :: value ++ [q]).take (value.length + 1) = q :: value := by
      change ((q :: value) ++ [q]).take (q :: value).length = q :: value
      exact List.take_left
    have cut : Reads (fun j => (mem.set (body + (value.length + 1)) 0) (body + j)) (q :: value) := by
      rw [← taken]
      refine reads.take (fun j below => mem.set_other 0 ?_) ?_
      · rw [taken, List.length_cons] at below
        omega
      · rw [taken]
        exact mem.set_same _ _
    have inner := cut.drop (show 1 ≤ (q :: value).length from Nat.succ_le_succ (Nat.zero_le _))
    rw [List.drop_succ_cons, List.drop_zero] at inner
    simpa only [Nat.add_assoc] using inner

/-- No quotes are taken off a value that does not begin and end with the same one. -/
theorem unquote_plain {mem : Memory UInt8} {body : Nat} {q : UInt8} {rest : List UInt8}
    (reads : Reads (fun j => mem (body + j)) (q :: rest)) (short : (q :: rest).length ≤ 96)
    (plain : ¬ ((q = 39 ∨ q = 34) ∧ (q :: rest).getLast? = some q)) :
    unquote mem body = (mem, body) := by
  have len : cprStrlen (fun j => mem (body + j)) sizeofLinebuf = rest.length + 1 := by
    rw [reads.strlen, List.length_cons, sizeofLinebuf]
    rw [List.length_cons] at short
    omega
  have opening : mem body = q := reads.head rfl
  have closing := reads.last (List.getLast?_eq_some_getLast (List.cons_ne_nil q rest))
  rw [List.length_cons, Nat.add_sub_cancel] at closing
  unfold unquote
  rw [len, opening, show body + (rest.length + 1) - 1 = body + rest.length by omega]
  refine if_neg fun quoted => plain ⟨quoted.1, ?_⟩
  rw [List.getLast?_eq_some_getLast (List.cons_ne_nil q rest), ← closing, quoted.2]

/-- Of a quote alone nothing is left. -/
theorem unquote_alone {mem : Memory UInt8} {body : Nat} {q : UInt8}
    (reads : Reads (fun j => mem (body + j)) [q]) (quote : q = 39 ∨ q = 34) :
    unquote mem body = (mem.set body 0, body) := by
  have len : cprStrlen (fun j => mem (body + j)) sizeofLinebuf = 1 := reads.strlen _
  have opening : mem body = q := reads.head rfl
  unfold unquote
  dsimp only
  rw [len, Nat.add_sub_cancel, if_pos ⟨by rwa [opening], rfl⟩, Memory.set_same,
    if_neg (by simp)]

theorem unquote_reads {mem : Memory UInt8} {body : Nat} {value : List UInt8}
    (reads : Reads (fun j => mem (body + j)) value) (short : value.length ≤ 96) :
    Reads (fun j => (unquote mem body).1 ((unquote mem body).2 + j)) (unquoted value) ∧
    ∀ i < body, (unquote mem body).1 i = mem i := by
  cases value with
  | nil =>
      have stop : mem body = 0 := reads.stop
      have untouched : unquote mem body = (mem, body) := by
        unfold unquote
        rw [stop]
        exact if_neg fun quoted => by simp at quoted
      rw [untouched]
      exact ⟨reads, fun _ _ => rfl⟩
  | cons q rest =>
      rw [unquoted_cons]
      by_cases quoted : (q = 39 ∨ q = 34) ∧ (q :: rest).getLast? = some q
      · rw [if_pos quoted]
        cases rest using List.reverseRecOn with
        | nil =>
            rw [unquote_alone reads quoted.1]
            refine ⟨⟨nofun, nofun, mem.set_same body 0⟩, fun i before => ?_⟩
            exact mem.set_other 0 (by omega)
        | append_singleton inner c =>
            obtain ⟨quote, last⟩ := quoted
            rw [← List.cons_append, List.getLast?_concat, Option.some_inj] at last
            subst last
            rw [List.length_cons, List.length_append, List.length_singleton] at short
            obtain ⟨taken, text⟩ := unquote_quoted reads quote (by omega)
            rw [taken, List.dropLast_concat]
            exact ⟨text, fun i before => mem.set_other 0 (by omega)⟩
      · rw [if_neg quoted, unquote_plain reads short quoted]
        exact ⟨reads, fun _ _ => rfl⟩

theorem dropBlank_sublist (value : List UInt8) : (dropBlank value).Sublist value := by
  cases value with
  | nil => exact .refl _
  | cons b value =>
      rw [dropBlank_cons]
      split
      · exact List.sublist_cons_self b value
      · exact .refl _

theorem unquoted_sublist (value : List UInt8) : (unquoted value).Sublist value := by
  cases value with
  | nil => exact .refl _
  | cons q rest =>
      rw [unquoted_cons]
      split
      · exact (List.dropLast_sublist rest).trans (List.sublist_cons_self q rest)
      · exact .refl _

/-- The name and the value of an assignment, once a NUL is stored behind the name. -/
theorem assignment_cut {mem : Memory UInt8} {lp : Nat} {key body : List UInt8} {b : UInt8}
    (reads : Reads (fun j => mem (lp + j)) (key ++ b :: body)) :
    Reads (fun j => (mem.set (lp + (rtrim key).length) 0) (lp + j)) (rtrim key) ∧
    Reads (fun j => (mem.set (lp + (rtrim key).length) 0) (lp + key.length + 1 + j)) body := by
  obtain ⟨tail, whole⟩ := rtrim_start key
  have within := rtrim_length_le key
  constructor
  · rw [← whole, List.append_assoc] at reads
    exact reads.cut_at
  · have behind := reads.behind.behind (v := [b])
    refine Reads.set_before ?_ (by omega) 0
    simpa only [List.length_singleton, Nat.add_assoc] using behind

/-- The name and the value that are copied once the quotes are off. -/
theorem key_copied {mem : Memory UInt8} {lp body : Nat} {name value : List UInt8}
    (named : Reads (fun j => mem (lp + j)) name) (reads : Reads (fun j => mem (body + j)) value)
    (apart : lp + name.length < body) (short : value.length ≤ 96) :
    (cprLower (unquote mem body).1 lp 32).bytes = (name.take 32).map tolower ∧
    (strdup (unquote mem body).1 (unquote mem body).2).bytes = unquoted value := by
  obtain ⟨stripped, kept⟩ := unquote_reads reads short
  have unchanged : Reads (fun j => (unquote mem body).1 (lp + j)) name :=
    named.congr fun j inside => kept (lp + j) (by omega)
  constructor
  · exact congrArg (List.map tolower) (textAt_bytes unchanged 32)
  · have fits := (unquoted_sublist value).length_le
    refine (textAt_bytes stripped sizeofLinebuf).trans (List.take_of_length_le ?_)
    unfold sizeofLinebuf
    omega

/-- An assignment says what stands around its equals sign. -/
theorem parseAssignment_reads {mem : Memory UInt8} {lp : Nat} {text : List UInt8}
    (reads : Reads (fun j => mem (lp + j)) text) (short : text.length < 96) :
    (parseAssignment mem lp).2.reading = readAssignment text := by
  have equals := findEquals_reads reads short
  have split := (takeWhile_split 61 text).1
  unfold parseAssignment readAssignment
  dsimp only
  rw [equals]
  generalize text.takeWhile (· != 61) = key at split ⊢
  generalize text.dropWhile (· != 61) = rest at split ⊢
  subst split
  cases rest with
  | nil =>
      have stop : mem (lp + key.length) = 0 := reads.behind.stop
      rw [stop, if_pos (.inr rfl)]
      rfl
  | cons b body =>
      have there : mem (lp + key.length) = b := reads.behind.char 0 (Nat.zero_lt_succ _)
      have nonNul : mem (lp + key.length) ≠ 0 := by
        rw [there]
        exact reads.nonNul b (by simp)
      dsimp only
      by_cases empty : key.length = 0
      · rw [List.length_eq_zero_iff.mp empty, if_pos (.inl rfl)]
        rfl
      · have char (j : Nat) (h : j < key.length) : mem (lp + j) = key[j] := by
          rw [reads.char j (by rw [List.length_append]; omega), List.getElem_append_left h]
        have inside : ¬ (lp + key.length = lp ∨ mem (lp + key.length) = 0) := by
          rintro (start | stop)
          · omega
          · exact nonNul stop
        rw [if_neg inside, show lp + key.length - 1 - lp = key.length - 1 by omega,
          backOverKey_reads char]
        by_cases thin : (rtrim key).length < 2
        · rw [if_pos thin, if_pos (by omega)]
          rfl
        · rw [if_neg thin, if_neg (by omega), show lp + ((rtrim key).length - 1) + 1 =
            lp + (rtrim key).length by omega]
          obtain ⟨name, body_⟩ := assignment_cut reads
          have value := dropBlank_reads body_
          have within := (dropBlank_sublist body).length_le
          have shorter := rtrim_length_le key
          have total : body.length < 96 := by simp at short; omega
          have copied := key_copied name value (by split <;> omega) (by omega)
          change Reading.key _ _ = _
          rw [copied.1, copied.2]

/-! ## Lines -/

/-- The first test of the loop on a chunk that does not end in a newline. -/
theorem unended_stops {mem : Memory UInt8} {line : List UInt8} (reads : Reads mem line)
    (short : line.length ≤ 95) (unended : line.getLast? ≠ some 10) :
    cprStrlen mem sizeofLinebuf = line.length ∧
    (cprStrlen mem sizeofLinebuf = 0 ∨ mem (cprStrlen mem sizeofLinebuf - 1) ≠ 10) := by
  have len : cprStrlen mem sizeofLinebuf = line.length := by
    rw [reads.strlen, sizeofLinebuf]
    omega
  refine ⟨len, ?_⟩
  rw [len]
  by_cases empty : line.length = 0
  · exact .inl empty
  · refine .inr fun newline => unended ?_
    have some_ : line ≠ [] := List.ne_nil_of_length_pos (Nat.pos_of_ne_zero empty)
    rw [List.getLast?_eq_some_getLast some_,
      ← reads.last (List.getLast?_eq_some_getLast some_), newline]

/-- A chunk of the file that does not end in a newline brings nothing and leaves the
buffer as it is. -/
theorem parseLine_unended {mem : Memory UInt8} {line : List UInt8} (reads : Reads mem line)
    (short : line.length ≤ 95) (unended : line.getLast? ≠ some 10) :
    parseLine mem = (mem, .skip) :=
  if_pos (unended_stops reads short unended).2

/-- The last byte behind an opening bracket, as the last of the text. -/
theorem closing_bracket {mem : Memory UInt8} {rest : List UInt8} (reads : Reads mem (91 :: rest)) :
    mem ((91 :: rest).length - 1) = 93 ↔ rest.getLast? = some 93 := by
  cases last : rest.getLast? with
  | none =>
      rw [List.getLast?_eq_none_iff] at last
      subst last
      rw [reads.last rfl]
      decide
  | some c =>
      rw [reads.last (show (91 :: rest).getLast? = some c by simp [List.getLast?_cons, last]),
        Option.some_inj]

/-- A line that ends in a newline is trimmed and then read where its text begins. -/
theorem parseLine_ended {mem : Memory UInt8} {text : List UInt8}
    (reads : Reads mem (text ++ [10])) (short : text.length ≤ 94) :
    ∃ after : Memory UInt8, trimRight mem (text.length + 1) = (after, (rtrim text).length - 1) ∧
      Reads after (rtrim text) ∧
      Reads (fun j => after (skipSpace after 0 + j)) (ltrim (rtrim text)) ∧
      skipSpace after 0 + (ltrim (rtrim text)).length = (rtrim text).length ∧
      parseLine mem =
        if after (skipSpace after 0) = 0 then (after, .skip)
        else if after (skipSpace after 0) = 91 ∧
            after (skipSpace after 0 + ((rtrim text).length - 1)) = 93 then
          parseHeader after (skipSpace after 0) ((rtrim text).length - 1)
        else if !isalnum (after (skipSpace after 0)) then (after, .skip)
        else parseAssignment after (skipSpace after 0) := by
  have length : (text ++ [10]).length = text.length + 1 := by simp
  have len : cprStrlen mem sizeofLinebuf = text.length + 1 := by
    rw [reads.strlen, length, sizeofLinebuf]
    omega
  have newline : mem (text.length + 1 - 1) = 10 := by
    have last := reads.last List.getLast?_concat
    rwa [length] at last
  have inside : ¬ (text.length + 1 = 0 ∨ mem (text.length + 1 - 1) ≠ 10) := by
    rintro (none | other)
    · cases none
    · exact other newline
  obtain ⟨after, trimmed, kept⟩ := trimRight_reads reads
  rw [length, rtrim_space text (by decide)] at trimmed
  rw [rtrim_space text (by decide)] at kept
  have within := rtrim_length_le text
  obtain ⟨lengths, front⟩ := skipSpace_reads (reads_zero_add.mpr kept) (by omega)
  refine ⟨after, trimmed, kept, front, by omega, ?_⟩
  unfold parseLine
  dsimp only
  rw [len, if_neg inside, trimmed]

/-- A line whose text does not begin with white space brings what its text says. -/
theorem parseLine_reads {mem : Memory UInt8} {text : List UInt8}
    (reads : Reads mem (text ++ [10])) (short : text.length ≤ 94)
    (ink : ∀ b ∈ (rtrim text).head?, isspace b = false) :
    (parseLine mem).2.reading = readText (rtrim text) := by
  obtain ⟨after, _, _, kept, lengths, parsed⟩ := parseLine_ended reads short
  have within := rtrim_length_le text
  rw [ltrim_ink ink] at kept lengths
  have start : skipSpace after 0 = 0 := by omega
  rw [start] at kept parsed
  rw [parsed]
  generalize rtrim text = trim at kept within ⊢
  cases trim with
  | nil =>
      have stop : after 0 = 0 := kept.stop
      rw [if_pos stop]
      rfl
  | cons b rest =>
      have first : after 0 = b := kept.head rfl
      have nonNul : b ≠ 0 := kept.nonNul b List.mem_cons_self
      have whole : Reads after (b :: rest) := reads_zero_add.mp kept
      have brackets : (after 0 = 91 ∧ after (0 + ((b :: rest).length - 1)) = 93) ↔
          (b = 91 ∧ rest.getLast? = some 93) := by
        rw [first, Nat.zero_add]
        refine and_congr_right fun opening => ?_
        rw [opening] at whole
        exact closing_bracket whole
      rw [readText_cons, if_neg (by rwa [first])]
      by_cases header : b = 91 ∧ rest.getLast? = some 93
      · rw [if_pos (brackets.mpr header), if_pos header]
        obtain ⟨rfl, last⟩ := header
        obtain ⟨inner, rfl⟩ := List.getLast?_eq_some_iff.mp last
        rw [List.dropLast_concat, List.length_cons, List.length_append, List.length_singleton,
          Nat.add_sub_cancel]
        rw [List.length_cons, List.length_append, List.length_singleton] at within
        exact parseHeader_reads whole (by omega)
      · rw [if_neg (fun both => header (brackets.mp both)), if_neg header]
        by_cases alnum : (!isalnum b) = true
        · rw [if_pos (by rwa [first]), if_pos alnum]
          rfl
        · rw [if_neg (by rwa [first]), if_neg alnum]
          exact parseAssignment_reads kept (by omega)

end CprFormal.Keyfile.Grammar
