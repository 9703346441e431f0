import CprFormal.Keyfile.Lines

/-!
# Where `load_keyfile` reads and writes its line buffer

The indices that `load_keyfile` reads or writes through `lp`, `kw`, `body` and `ep`, by
itself or in the functions that it hands them to, are recorded loop by loop, in the order
of the source.  All of them are in front of a NUL of the line, apart from `lp[len]`, where
the closing bracket of a section is looked for.
-/

namespace CprFormal.Keyfile.LineBuffer

open CprFormal.Library.FlatMemory CprFormal.Library.Search CprFormal.Library.Lists
open CprFormal.Strchar.Ctype CprFormal.Strchar.Strlen
open CprFormal.Keyfile.Model CprFormal.Keyfile.Chunks CprFormal.Keyfile.Grammar
open CprFormal.Keyfile.Outline CprFormal.Keyfile.Lines

/-- `while (*s && (++count < max)) ++s;` of `cpr_strlen(&mem[i], max)` -/
def strlenAccesses (mem : Memory UInt8) (i limit : Nat) : Nat → Nat → List Nat
  | 0, _ => []
  | fuel + 1, count =>
      (i + count) ::
        if mem (i + count) = 0 then []
        else if count + 1 < limit then strlenAccesses mem i limit fuel (count + 1)
        else []

/-- `cpr_strlen(&mem[i], max)` -/
def cprStrlenAccesses (mem : Memory UInt8) (i limit : Nat) : List Nat :=
  strlenAccesses mem i limit (limit + 1) 0

/-- `cpr_upper(&mem[i], max)` and `cpr_lower(&mem[i], max)` -/
def convertAccesses (mem : Memory UInt8) (i limit : Nat) : List Nat :=
  cprStrlenAccesses mem i limit ++
    (List.range (cprStrlen (fun j => mem (i + j)) limit)).map (i + ·)

/-- `strdup(&mem[i])` -/
def strdupAccesses (mem : Memory UInt8) (i : Nat) : List Nat :=
  (List.range (cprStrlen (fun j => mem (i + j)) sizeofLinebuf + 1)).map (i + ·)

/-- `while (len > 0 && isspace(lp[--len])) lp[len] = 0;` -/
def trimRightAccesses : Memory UInt8 → Nat → List Nat
  | _, 0 => []
  | mem, len + 1 =>
      len :: if isspace (mem len) then len :: trimRightAccesses (mem.set len 0) len else []

/-- The loops that pass over white space. -/
def skipSpaceAccesses (mem : Memory UInt8) (i : Nat) : List Nat :=
  searchReads (fun j => !isspace (mem j)) sizeofLinebuf i

/-- `while (len > 1 && isspace(lp[--len])) ;` -/
def backOverSpaceAccesses (mem : Memory UInt8) (lp : Nat) : Nat → List Nat
  | 0 => []
  | 1 => []
  | len + 2 =>
      (lp + (len + 1)) ::
        if isspace (mem (lp + (len + 1))) then backOverSpaceAccesses mem lp (len + 1) else []

/-- The branch of a section. -/
def headerAccesses (mem : Memory UInt8) (lp len : Nat) : List Nat :=
  let back := backOverSpaceAccesses mem lp len
  let len := backOverSpace mem lp len
  if len < 2 then back
  else
    let name := skipSpace mem (lp + 1)
    let len := len - (name - (lp + 1))
    back ++ skipSpaceAccesses mem (lp + 1) ++ [name + len] ++
      convertAccesses (mem.set (name + len) 0) name 32

/-- `while (kw > lp && isspace(*kw)) --kw;` with `kw` at `lp + n` -/
def backOverKeyAccesses (mem : Memory UInt8) (lp : Nat) : Nat → List Nat
  | 0 => []
  | n + 1 =>
      (lp + (n + 1)) ::
        if isspace (mem (lp + (n + 1))) then backOverKeyAccesses mem lp n else []

/-- The part of the branch of a key that takes quotes off. -/
def unquoteAccesses (mem : Memory UInt8) (body : Nat) : List Nat :=
  let ep := body + cprStrlen (fun j => mem (body + j)) sizeofLinebuf - 1
  cprStrlenAccesses mem body sizeofLinebuf ++ [body] ++
    if mem body = 39 ∨ mem body = 34 then
      ep :: if mem ep = mem body then [ep, body] else []
    else []

/-- The branch of a key. -/
def assignmentAccesses (mem : Memory UInt8) (lp : Nat) : List Nat :=
  let find := searchReads (fun j => mem j == 0 || mem j == 61) sizeofLinebuf lp
  let kw := findEquals mem lp
  if kw = lp then find
  else if mem kw = 0 then find ++ [kw]
  else
    let body := kw + 1
    let back := backOverKeyAccesses mem lp (kw - 1 - lp)
    let last := backOverKey mem lp (kw - 1 - lp)
    if last = lp then find ++ [kw] ++ back
    else
      let mem := mem.set (last + 1) 0
      let value := if mem body ≠ 0 ∧ isspace (mem body) then body + 1 else body
      let (final, text) := unquote mem value
      find ++ [kw] ++ back ++ [last + 1, body] ++ unquoteAccesses mem value ++
        (convertAccesses final lp 32 ++ strdupAccesses final text)

/-- What follows the trimming of a line. -/
def trimmedAccesses (mem : Memory UInt8) (lp len : Nat) : List Nat :=
  if mem lp = 0 then [lp]
  else if mem lp = 91 ∧ mem (lp + len) = 93 then [lp, lp + len] ++ headerAccesses mem lp len
  else
    (if mem lp = 91 then [lp, lp + len] else [lp]) ++
      if !isalnum (mem lp) then [] else assignmentAccesses mem lp

/-- The body of the loop of `load_keyfile` on a line in the buffer. -/
def lineAccesses (mem : Memory UInt8) : List Nat :=
  let len := cprStrlen mem sizeofLinebuf
  if len = 0 then cprStrlenAccesses mem 0 sizeofLinebuf
  else if mem (len - 1) ≠ 10 then cprStrlenAccesses mem 0 sizeofLinebuf ++ [len - 1]
  else
    let (after, last) := trimRight mem len
    cprStrlenAccesses mem 0 sizeofLinebuf ++ [len - 1] ++ trimRightAccesses mem len ++
      skipSpaceAccesses after 0 ++ trimmedAccesses after (skipSpace after 0) last

/-- The passes of the loop over the lines that `fgets` takes. -/
def loadAccesses (s : Loading) : List (List UInt8) → List Nat
  | [] => []
  | line :: lines =>
      lineAccesses (s.mem.write 0 (line ++ [0])) ++ loadAccesses (loadLine s line) lines

/-- `load_keyfile` of a file over what the stack holds in place of the buffer. -/
def keyfileAccesses (stack : Memory UInt8) (file : List UInt8) : List Nat :=
  loadAccesses ⟨stack, [], rootSection⟩ (fgetsLines file.length file)

/-! ## How far the loops go -/

section Loops

variable {mem : Memory UInt8} {i k : Nat}

theorem strlenAccesses_le (nul : mem k = 0) {limit fuel count : Nat} (low : i + count ≤ k) :
    ∀ j ∈ strlenAccesses mem i limit fuel count, j ≤ k := by
  induction fuel generalizing count with
  | zero => nofun
  | succ fuel ih =>
      intro j member
      rcases List.mem_cons.mp member with rfl | later
      · exact low
      · by_cases stop : mem (i + count) = 0
        · rw [if_pos stop] at later
          cases later
        · rw [if_neg stop] at later
          have other : i + count ≠ k := fun same => stop (same ▸ nul)
          split at later
          · exact ih (by omega) j later
          · cases later

theorem cprStrlenAccesses_le (nul : mem k = 0) (low : i ≤ k) (limit : Nat) :
    ∀ j ∈ cprStrlenAccesses mem i limit, j ≤ k :=
  strlenAccesses_le nul low

/-- A text ends at a NUL at the latest. -/
theorem cprStrlen_nul (nul : mem k = 0) (low : i ≤ k) (limit : Nat) :
    i + cprStrlen (fun j => mem (i + j)) limit ≤ k := by
  by_contra beyond
  refine cprStrlen_ne_zero (fun j => mem (i + j)) limit (show k - i < _ by omega) ?_
  rwa [Nat.add_sub_cancel' low]

theorem convertAccesses_le (nul : mem k = 0) (low : i ≤ k) (limit : Nat) :
    ∀ j ∈ convertAccesses mem i limit, j ≤ k := by
  have ends := cprStrlen_nul nul low limit
  intro j member
  rcases List.mem_append.mp member with counted | char
  · exact cprStrlenAccesses_le nul low limit j counted
  · obtain ⟨n, inside, rfl⟩ := List.mem_map.mp char
    have before := List.mem_range.mp inside
    omega

theorem strdupAccesses_le (nul : mem k = 0) (low : i ≤ k) : ∀ j ∈ strdupAccesses mem i, j ≤ k := by
  have ends := cprStrlen_nul nul low sizeofLinebuf
  intro j member
  obtain ⟨n, inside, rfl⟩ := List.mem_map.mp member
  have before := List.mem_range.mp inside
  omega

theorem trimRightAccesses_lt (mem : Memory UInt8) (len : Nat) :
    ∀ j ∈ trimRightAccesses mem len, j < len := by
  induction len generalizing mem with
  | zero => nofun
  | succ len ih =>
      intro j member
      rcases List.mem_cons.mp member with rfl | later
      · exact Nat.lt_succ_self j
      · split at later
        · rcases List.mem_cons.mp later with rfl | rest
          · exact Nat.lt_succ_self j
          · exact Nat.lt_succ_of_lt (ih _ j rest)
        · cases later

theorem skipSpace_le (low : i ≤ k) (ink : isspace (mem k) = false) : skipSpace mem i ≤ k :=
  searchUp_le _ low (by rw [ink]; rfl)

theorem skipSpaceAccesses_le (low : i ≤ k) (ink : isspace (mem k) = false) :
    ∀ j ∈ skipSpaceAccesses mem i, j ≤ k :=
  searchReads_le _ low (by rw [ink]; rfl)

theorem backOverSpaceAccesses_lt (mem : Memory UInt8) (lp len : Nat) :
    ∀ j ∈ backOverSpaceAccesses mem lp len, j < lp + len := by
  fun_induction backOverSpaceAccesses mem lp len with
  | case1 => nofun
  | case2 => nofun
  | case3 len ih =>
      intro j member
      rcases List.mem_cons.mp member with rfl | later
      · omega
      · split at later
        · have before := ih j later
          omega
        · cases later

theorem backOverKey_bounds (mem : Memory UInt8) (lp n : Nat) :
    lp ≤ backOverKey mem lp n ∧ backOverKey mem lp n ≤ lp + n := by
  induction n with
  | zero => exact ⟨Nat.le_refl lp, Nat.le_refl lp⟩
  | succ n ih =>
      rw [backOverKey]
      split
      · exact ⟨ih.1, Nat.le_succ_of_le ih.2⟩
      · exact ⟨Nat.le_add_right _ _, Nat.le_refl _⟩

theorem backOverKeyAccesses_le (mem : Memory UInt8) (lp n : Nat) :
    ∀ j ∈ backOverKeyAccesses mem lp n, j ≤ lp + n := by
  induction n with
  | zero => nofun
  | succ n ih =>
      intro j member
      rcases List.mem_cons.mp member with rfl | later
      · exact Nat.le_refl _
      · split at later
        · exact Nat.le_succ_of_le (ih j later)
        · cases later

/-! ## The branches -/

/-- The branch of a section stays in front of the bracket that has been found, and
stores a NUL there at most. -/
theorem headerAccesses_le {lp len : Nat} (bracket : mem (lp + len) = 93) :
    ∀ j ∈ headerAccesses mem lp len, j ≤ lp + len := by
  have ink : isspace (mem (lp + len)) = false := by
    rw [bracket]
    rfl
  have back := backOverSpaceAccesses_lt mem lp len
  intro j member
  unfold headerAccesses at member
  dsimp only at member
  split at member
  · exact Nat.le_of_lt (back j member)
  · rename_i named
    have more : 2 ≤ len := by
      by_contra less
      have kept : backOverSpace mem lp len ≤ len := by
        match len with
        | 0 => exact Nat.le_refl _
        | 1 => exact Nat.le_refl _
        | len + 2 => omega
      omega
    have front : lp + 1 ≤ lp + len := by omega
    have start := skipSpace_le front ink
    have behind : lp + 1 ≤ skipSpace mem (lp + 1) := searchUp_ge _ _ _
    have shorter := backOverSpace_lt mem lp more
    generalize skipSpace mem (lp + 1) = name at start behind member
    generalize backOverSpace mem lp len = cut at named shorter member
    rcases List.mem_append.mp member with early | converted
    · rcases List.mem_append.mp early with reads | stored
      · rcases List.mem_append.mp reads with earlier | passed
        · exact Nat.le_of_lt (back j earlier)
        · exact skipSpaceAccesses_le front ink j passed
      · rw [List.mem_singleton.mp stored]
        omega
    · have near := convertAccesses_le (mem.set_same (name + (cut - (name - (lp + 1)))) 0)
        (Nat.le_add_right name _) 32 j converted
      omega

/-- Only what is accessed changes. -/
theorem parseHeader_untouched {lp len : Nat} (outside : i ∉ headerAccesses mem lp len) :
    (parseHeader mem lp len).1 i = mem i := by
  unfold parseHeader
  unfold headerAccesses at outside
  dsimp only at outside ⊢
  split
  · rfl
  · rename_i named
    rw [if_neg named] at outside
    refine mem.set_other 0 fun same => outside (List.mem_append_left _ ?_)
    exact List.mem_append_right _ (List.mem_singleton.mpr same)

theorem unquote_untouched {body : Nat} (outside : i ∉ unquoteAccesses mem body) :
    (unquote mem body).1 i = mem i := by
  unfold unquote
  unfold unquoteAccesses at outside
  dsimp only at outside ⊢
  split
  · rename_i quoted
    rw [if_pos quoted.1] at outside
    refine mem.set_other 0 fun same => outside ?_
    exact List.mem_append_right _ (List.mem_cons.mpr (.inl same))
  · rfl

theorem parseAssignment_untouched {lp : Nat} (outside : i ∉ assignmentAccesses mem lp) :
    (parseAssignment mem lp).1 i = mem i := by
  unfold parseAssignment
  unfold assignmentAccesses at outside
  dsimp only at outside ⊢
  split
  · rfl
  · rename_i moves
    rw [not_or] at moves
    rw [if_neg moves.1, if_neg moves.2] at outside
    split
    · rfl
    · rename_i named
      rw [if_neg named] at outside
      have before := fun member => outside (List.mem_append_left _ member)
      have behind := fun member => before (List.mem_append_right _ member)
      refine (unquote_untouched behind).trans (mem.set_other 0 fun same => before ?_)
      refine List.mem_append_left _ (List.mem_append_right _ ?_)
      exact List.mem_cons.mpr (.inl same)

theorem unquoteAccesses_le (nul : mem k = 0) (low : i ≤ k) :
    ∀ j ∈ unquoteAccesses mem i, j ≤ k := by
  have ends := cprStrlen_nul nul low sizeofLinebuf
  intro j member
  unfold unquoteAccesses at member
  dsimp only at member
  rcases List.mem_append.mp member with reads | quotes
  · rcases List.mem_append.mp reads with counted | first
    · exact cprStrlenAccesses_le nul low _ j counted
    · rw [List.mem_singleton.mp first]
      exact low
  · split at quotes
    · rcases List.mem_cons.mp quotes with rfl | stored
      · omega
      · split at stored
        · rcases List.mem_cons.mp stored with rfl | again
          · omega
          · rw [List.mem_singleton.mp again]
            exact low
        · cases stored
    · cases quotes

/-- The value begins in front of a NUL when the quotes are off. -/
theorem unquote_le (nul : mem k = 0) (low : i ≤ k) :
    (unquote mem i).1 k = 0 ∧ (unquote mem i).2 ≤ k := by
  unfold unquote
  dsimp only
  split
  · generalize i + cprStrlen (fun j => mem (i + j)) sizeofLinebuf - 1 = last
    have stop : (mem.set last 0) k = 0 := by
      by_cases same : k = last
      · rw [same]
        exact mem.set_same last 0
      · exact (mem.set_other 0 same).trans nul
    refine ⟨stop, ?_⟩
    split
    · rename_i charged
      exact Nat.lt_of_le_of_ne low fun same => charged (same ▸ stop)
    · exact low
  · exact ⟨nul, low⟩

/-- The branch of a key stays in front of a NUL. -/
theorem assignmentAccesses_le (nul : mem k = 0) (low : i ≤ k) :
    ∀ j ∈ assignmentAccesses mem i, j ≤ k := by
  have stops : (fun j => mem j == 0 || mem j == 61) k = true := by simp [nul]
  have find : ∀ j ∈ searchReads (fun j => mem j == 0 || mem j == 61) sizeofLinebuf i, j ≤ k :=
    searchReads_le _ low stops
  have equals : findEquals mem i ≤ k := searchUp_le sizeofLinebuf low stops
  have forward : i ≤ findEquals mem i := searchUp_ge _ _ _
  intro j member
  unfold assignmentAccesses at member
  dsimp only at member
  generalize searchReads (fun j => mem j == 0 || mem j == 61) sizeofLinebuf i = reads at find member
  generalize findEquals mem i = kw at equals forward member
  have here : ∀ j ∈ reads ++ [kw], j ≤ k := by
    intro j found
    rcases List.mem_append.mp found with passed | last
    · exact find j passed
    · rw [List.mem_singleton.mp last]
      exact equals
  split at member
  · exact find j member
  · rename_i moved
    split at member
    · exact here j member
    · rename_i charged
      have before : kw < k := Nat.lt_of_le_of_ne equals fun same => charged (same ▸ nul)
      have goes := backOverKeyAccesses_le mem i (kw - 1 - i)
      have bounds := backOverKey_bounds mem i (kw - 1 - i)
      have back : ∀ j ∈ reads ++ [kw] ++ backOverKeyAccesses mem i (kw - 1 - i), j ≤ k := by
        intro j found
        rcases List.mem_append.mp found with passed | later
        · exact here j passed
        · have bound := goes j later
          omega
      generalize backOverKey mem i (kw - 1 - i) = last at bounds member
      split at member
      · exact back j member
      · have kept : (mem.set (last + 1) 0) k = 0 := (mem.set_other 0 (by omega)).trans nul
        have value : (if (mem.set (last + 1) 0) (kw + 1) ≠ 0 ∧
            isspace ((mem.set (last + 1) 0) (kw + 1)) = true then kw + 1 + 1 else kw + 1) ≤ k := by
          split
          · rename_i blank
            have other : kw + 1 ≠ k := fun same => blank.1 (same ▸ kept)
            omega
          · exact before
        obtain ⟨stop, text⟩ := unquote_le kept value
        rcases List.mem_append.mp member with early | copied
        · rcases List.mem_append.mp early with early | quotes
          · rcases List.mem_append.mp early with passed | pair
            · exact back j passed
            · rcases List.mem_cons.mp pair with rfl | body
              · omega
              · rw [List.mem_singleton.mp body]
                exact before
          · exact unquoteAccesses_le kept value j quotes
        · rcases List.mem_append.mp copied with key | copy
          · exact convertAccesses_le stop low 32 j key
          · exact strdupAccesses_le stop text j copy

/-- A line that begins with an opening bracket stays inside when the closing one does. -/
theorem openingAccesses_iff {lp len : Nat} (opening : mem lp = 91) :
    (∀ i ∈ trimmedAccesses mem lp len, i < 96) ↔ lp + len < 96 := by
  have charged : mem lp ≠ 0 := by
    rw [opening]
    decide
  have other : (!isalnum (mem lp)) = true := by
    rw [opening]
    rfl
  unfold trimmedAccesses
  rw [if_neg charged]
  by_cases found : mem lp = 91 ∧ mem (lp + len) = 93
  · rw [if_pos found]
    refine ⟨fun inside => inside _ (List.mem_append_left _ (by simp)), fun inside i member => ?_⟩
    rcases List.mem_append.mp member with pair | later
    · rcases List.mem_cons.mp pair with rfl | last
      · omega
      · rwa [List.mem_singleton.mp last]
    · have bracket := headerAccesses_le found.2 i later
      omega
  · rw [if_neg found, if_pos opening, if_pos other, List.append_nil]
    refine ⟨fun inside => inside _ (by simp), fun inside i member => ?_⟩
    rcases List.mem_cons.mp member with rfl | last
    · omega
    · rwa [List.mem_singleton.mp last]

/-- Every other line stays in front of its NUL. -/
theorem otherAccesses_lt {lp len : Nat} (nul : mem k = 0) (low : lp ≤ k) (inside : k < 96)
    (other : mem lp ≠ 91) : ∀ i ∈ trimmedAccesses mem lp len, i < 96 := by
  have none_ : ¬ (mem lp = 91 ∧ mem (lp + len) = 93) := fun both => other both.1
  intro i member
  unfold trimmedAccesses at member
  by_cases zero : mem lp = 0
  · rw [if_pos zero] at member
    rw [List.mem_singleton.mp member]
    omega
  · rw [if_neg zero, if_neg none_, if_neg other] at member
    rcases List.mem_append.mp member with start | later
    · rw [List.mem_singleton.mp start]
      omega
    · split at later
      · cases later
      · have bound := assignmentAccesses_le nul low i later
        omega

end Loops

/-- The closing bracket of a chunk that begins with an opening one is looked for inside
the buffer. -/
def Inside (chunk : List UInt8) : Prop :=
  0 ∉ chunk → chunk.getLast? = some 10 → (trimmed chunk).head? = some 91 → closing chunk < 96

instance (chunk : List UInt8) : Decidable (Inside chunk) := by
  unfold Inside
  infer_instance

/-- Behind the trimming everything is inside the buffer when the closing bracket is. -/
theorem trimmedAccesses_iff {mem after : Memory UInt8} {text : List UInt8}
    (trim : Trimmed mem text after) (short : text.length ≤ 94) :
    (∀ i ∈ trimmedAccesses after (indent (rtrim text)) ((rtrim text).length - 1), i < 96) ↔
      ((trimmed text).head? = some 91 → closing text < 96) := by
  have within := rtrim_length_le text
  have lengths := indent_add (rtrim text)
  have nul := trim.clear (rtrim text).length (Nat.le_refl _) (by omega)
  by_cases opening : (trimmed text).head? = some 91
  · have first : after (indent (rtrim text)) = 91 := trim.inner.head opening
    rw [openingAccesses_iff first]
    exact ⟨fun inside _ => inside, fun inside => inside opening⟩
  · have first : after (indent (rtrim text)) ≠ 91 := fun same =>
      opening (trim.inner.head_eq same (by decide))
    exact ⟨fun _ same => absurd same opening,
      fun _ => otherAccesses_lt nul (by omega) (by omega) first⟩

/-- In front of the trimming everything is inside the buffer. -/
theorem lineAccesses_ended (mem : Memory UInt8) {text : List UInt8} (nonNul : 0 ∉ text)
    (short : text.length ≤ 94) :
    (∀ i ∈ lineAccesses (mem.write 0 (text ++ [10] ++ [0])), i < 96) ↔
      ((trimmed text).head? = some 91 → closing text < 96) := by
  obtain ⟨after, trim, trims, skipped, _⟩ := parseLine_trims mem nonNul short
  have reads := reads_line mem nonNul
  have len : cprStrlen (mem.write 0 (text ++ [10] ++ [0])) sizeofLinebuf = text.length + 1 := by
    rw [reads.strlen, sizeofLinebuf, List.length_append, List.length_singleton]
    omega
  have last := reads.last List.getLast?_concat
  have stop := reads.stop
  rw [List.length_append, List.length_singleton] at last stop
  have within := rtrim_length_le text
  have ink : isspace (after (rtrim text).length) = false := by
    rw [trim.clear _ (Nat.le_refl _) (by omega)]
    rfl
  have counted := cprStrlenAccesses_le stop (Nat.zero_le _) sizeofLinebuf
  have trimming := trimRightAccesses_lt (mem.write 0 (text ++ [10] ++ [0])) (text.length + 1)
  have passing := skipSpaceAccesses_le (Nat.zero_le _) ink
  rw [← trimmedAccesses_iff trim short]
  unfold lineAccesses
  dsimp only
  rw [len, if_neg (Nat.succ_ne_zero _), if_neg (fun other => other last), trims]
  dsimp only
  rw [skipped]
  constructor
  · exact fun inside i member => inside i (List.mem_append_right _ member)
  · intro inside i member
    rcases List.mem_append.mp member with early | later
    · rcases List.mem_append.mp early with early | space
      · rcases List.mem_append.mp early with early | cut
        · rcases List.mem_append.mp early with front | end_
          · have bound := counted i front
            omega
          · rw [List.mem_singleton.mp end_]
            omega
        · have bound := trimming i cut
          omega
      · have bound := passing i space
        omega
    · exact inside i later

theorem lineAccesses_skipped (mem : Memory UInt8) {chunk : List UInt8} (short : chunk.length ≤ 95)
    (oneLine : 10 ∉ chunk.dropLast) (other : ¬ (0 ∉ chunk ∧ chunk.getLast? = some 10)) :
    ∀ i ∈ lineAccesses (mem.write 0 (chunk ++ [0])), i < 96 := by
  have reads := reads_write_bytes mem chunk
  have cut := takeWhile_short short
  obtain ⟨len, stops⟩ := unended_stops reads cut (chunk_unended oneLine other)
  have counted := cprStrlenAccesses_le reads.stop (Nat.zero_le _) sizeofLinebuf
  intro i member
  unfold lineAccesses at member
  dsimp only at member
  rw [len] at member stops
  split at member
  · have bound := counted i member
    omega
  · rename_i some_
    rw [if_pos (stops.resolve_left some_)] at member
    rcases List.mem_append.mp member with front | end_
    · have bound := counted i front
      omega
    · rw [List.mem_singleton.mp end_]
      omega

/-- A chunk is read inside the buffer exactly when its closing bracket is looked for
inside. -/
theorem lineAccesses_iff {chunk : List UInt8} (short : chunk.length ≤ 95)
    (oneLine : 10 ∉ chunk.dropLast) (mem : Memory UInt8) :
    (∀ i ∈ lineAccesses (mem.write 0 (chunk ++ [0])), i < 96) ↔ Inside chunk := by
  by_cases ended : 0 ∉ chunk ∧ chunk.getLast? = some 10
  · obtain ⟨nonNul, newline⟩ := ended
    obtain ⟨text, rfl⟩ := List.getLast?_eq_some_iff.mp newline
    rw [List.length_append, List.length_singleton] at short
    have clean : 0 ∉ text := fun nul => nonNul (List.mem_append_left _ nul)
    rw [lineAccesses_ended mem clean (by omega)]
    unfold Inside trimmed closing
    rw [rtrim_space text (by decide)]
    exact ⟨fun inside _ _ => inside, fun inside => inside nonNul newline⟩
  · exact ⟨fun _ clean newline => absurd ⟨clean, newline⟩ ended,
      fun _ => lineAccesses_skipped mem short oneLine ended⟩

theorem loadAccesses_iff (s : Loading) {lines : List (List UInt8)}
    (fits : ∀ line ∈ lines, line.length ≤ 95 ∧ 10 ∉ line.dropLast) :
    (∀ i ∈ loadAccesses s lines, i < 96) ↔ ∀ line ∈ lines, Inside line := by
  induction lines generalizing s with
  | nil => simp [loadAccesses]
  | cons line lines ih =>
      have first := fits line List.mem_cons_self
      have later := ih (loadLine s line) fun other member => fits other (List.mem_cons_of_mem _ member)
      rw [List.forall_mem_cons, ← later, ← lineAccesses_iff first.1 first.2 s.mem]
      exact List.forall_mem_append

/-- Whatever a file holds, all is read and written inside the buffer exactly when every
chunk that begins with an opening bracket looks for the closing one inside. -/
theorem keyfile_inside_iff (stack : Memory UInt8) (file : List UInt8) :
    (∀ i ∈ keyfileAccesses stack file, i < sizeofLinebuf) ↔
      ∀ chunk ∈ chunks file, Inside chunk :=
  loadAccesses_iff _ fun _ member => chunk_of_mem member

/-- Behind sixty blanks the closing bracket is looked for at index 121. -/
theorem keyfile_reads_behind :
    121 ∈ keyfileAccesses (fun _ => 0) (List.replicate 60 32 ++ [91, 120, 10]) ∧
      ¬ ∀ i ∈ keyfileAccesses (fun _ => 0) (List.replicate 60 32 ++ [91, 120, 10]),
        i < sizeofLinebuf := by
  have reads : 121 ∈ keyfileAccesses (fun _ => 0) (List.replicate 60 32 ++ [91, 120, 10]) := by
    decide +kernel
  exact ⟨reads, fun inside => absurd (inside 121 reads) (by decide)⟩

end CprFormal.Keyfile.LineBuffer
