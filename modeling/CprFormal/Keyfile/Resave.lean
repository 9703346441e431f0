import CprFormal.Keyfile.Saved

/-!
# Saving what was loaded

The sections of any file that was loaded, saved and loaded again.  A header whose name
has one byte or ends in white space is not read back, a line of more than 95 bytes is
dropped, and the keys come back in reversed order.
-/

namespace CprFormal.Keyfile.Resave

open CprFormal.Library.FlatMemory CprFormal.Library.Lists
open CprFormal.Strchar.Ctype CprFormal.Strchar.Strlen
open CprFormal.Keyfile.Model CprFormal.Keyfile.Chunks CprFormal.Keyfile.Grammar
open CprFormal.Keyfile.Outline CprFormal.Keyfile.Loaded CprFormal.Keyfile.Saved

/-- The second list has the sections of the first, and every lookup in them agrees. -/
structure SameSections (t t' : List KeysectionT) : Prop where
  ids : t'.map KeysectionT.id = t.map KeysectionT.id
  values : List.Forall₂ (fun group group' => ∀ id, getKeyvalue group' id = getKeyvalue group id)
    t t'

def endsInSpace (id : CString) : Prop := ∃ b ∈ id.bytes.getLast?, isspace b = true

/-- For every key the first assignment whose line fits has the value of the last one.
New keys come first in a section. -/
def SameValues (group : KeysectionT) : Prop :=
  ∀ id, ∀ last ∈ group.keys.find? fun key => decide (key.id = id),
    ∃ first ∈ group.keys.reverse.find? fun key => lineFits key && decide (key.id = id),
      first.value = last.value

/-- Sections that are saved without loss. -/
structure Resavable (t : List KeysectionT) : Prop where
  ids : ∀ group ∈ t.tail, 2 ≤ group.id.length ∧ ¬ endsInSpace group.id
  keys : ∀ group ∈ t, ∀ key ∈ group.keys, ¬ endsInSpace key.id
  values : ∀ group ∈ t, SameValues group

/-- A loaded file is the root section and others. -/
theorem load_cases (stack : Memory UInt8) (file : List UInt8) :
    LoadedSections (loadKeyfile stack file) ∧
    ∃ root rest, loadKeyfile stack file = root :: rest ∧ root.id.bytes = [42] := by
  obtain ⟨⟨names, ids, loaded⟩, keys⟩ := load_loaded stack file
  rw [List.map_map] at ids
  cases sections : loadKeyfile stack file with
  | nil =>
      rw [sections] at ids
      cases ids
  | cons root rest =>
      rw [sections] at ids keys
      obtain ⟨star, others⟩ := List.cons.inj ids
      have star : root.id.bytes = [42] := star
      refine ⟨⟨fun group member => ?_, fun group member key stored => ?_⟩, root, rest, rfl, star⟩
      · rcases List.mem_cons.mp member with rfl | later
        · rw [star]
          exact root_loaded
        · refine loaded _ ?_
          rw [← others]
          exact List.mem_map.mpr ⟨group, later, rfl⟩
      · exact keys (groupOf group) (List.mem_map.mpr ⟨group, member, rfl⟩)
          (key.id.bytes, key.value.bytes) (List.mem_map.mpr ⟨key, stored, rfl⟩)

theorem rtrim_eq_iff (id : CString) : rtrim id.bytes = id.bytes ↔ ¬ endsInSpace id := by
  constructor
  · rintro same ⟨b, last, space⟩
    obtain ⟨front, bytes⟩ := List.getLast?_eq_some_iff.mp last
    have lengths := congrArg List.length same
    have within := rtrim_length_le front
    rw [bytes, rtrim_space front space, List.length_append, List.length_singleton] at lengths
    omega
  · intro ink
    refine rtrim_last fun b last => ?_
    rw [← Bool.not_eq_true]
    exact fun space => ink ⟨b, last, space⟩

theorem rtrim_not_space {id id' : CString} (trimmed : rtrim id'.bytes = id.bytes) :
    ¬ endsInSpace id := by
  have nothing : rtrim (rtrim id'.bytes) = rtrim id'.bytes := List.rdropWhile_idempotent _ _
  rw [trimmed] at nothing
  exact (rtrim_eq_iff id).mp nothing

theorem rereadId_iff (id : CString) :
    (rereadId id).header? = some id.bytes ↔ 2 ≤ id.length ∧ ¬ endsInSpace id := by
  unfold rereadId
  rw [← rtrim_eq_iff]
  by_cases long : 2 ≤ (rtrim id.bytes).length
  · rw [if_pos long]
    have within := rtrim_length_le id.bytes
    refine ⟨fun same => ⟨Nat.le_trans long within, Option.some.inj same⟩, fun kept => ?_⟩
    exact congrArg some kept.2
  · rw [if_neg long]
    refine ⟨nofun, fun kept => absurd ?_ long⟩
    rw [kept.2]
    exact kept.1

theorem headers_of_keys (keys : List KeydataT) :
    (keys.map rereadKey).filterMap Reading.header? = [] := by
  rw [List.filterMap_map, List.filterMap_eq_nil_iff]
  intro key _
  change (rereadKey key).header? = none
  unfold rereadKey
  split
  · rfl
  · rfl

theorem headers_saved (t : List KeysectionT) :
    (t.flatMap savedReadings).filterMap Reading.header? =
      t.filterMap fun group => (rereadId group.id).header? := by
  induction t with
  | nil => rfl
  | cons group t ih =>
      rw [List.flatMap_cons, List.filterMap_append, ih, savedReadings, List.filterMap_cons,
        List.filterMap_cons, headers_of_keys]
      cases (rereadId group.id).header? with
      | none => rfl
      | some id => rfl

/-- A lookup in a section that comes back finds the first assignment whose line fits. -/
theorem resaved_lookup {group : KeysectionT}
    (loaded : ∀ key ∈ group.keys, LoadedKey key.id.bytes key.value.bytes)
    (trimmed : ∀ key ∈ group.keys, ¬ endsInSpace key.id) (id : CString) :
    (resaved group).lookup id.bytes =
      (group.keys.reverse.find? fun key => lineFits key && decide (key.id = id)).map
        fun key => key.value.bytes := by
  have kept : (group.keys.filterMap fun key => (rereadKey key).assignment?) =
      group.keys.filterMap fun key =>
        if lineFits key then some (key.id.bytes, key.value.bytes) else none := by
    refine List.filterMap_congr fun key member => ?_
    have long := (loaded key member).long
    unfold rereadKey
    rw [(rtrim_eq_iff key.id).mpr (trimmed key member)]
    cases lineFits key with
    | false => rfl
    | true =>
        rw [if_pos ⟨rfl, long⟩]
        rfl
  have test (key : KeydataT) :
      ((if lineFits key then some (key.id.bytes, key.value.bytes) else none).any
        fun entry => decide (entry.1 = id.bytes)) = (lineFits key && decide (key.id = id)) := by
    cases lineFits key with
    | false => rfl
    | true => exact decide_eq_decide.mpr CString.ext_iff.symm
  unfold resaved Group.lookup
  dsimp only
  rw [kept, ← List.filterMap_reverse, List.find?_filterMap]
  simp only [test]
  cases found : group.keys.reverse.find? fun key => lineFits key && decide (key.id = id) with
  | none => rfl
  | some key =>
      have hit := List.find?_some found
      rw [Bool.and_eq_true] at hit
      rw [Option.bind_some, hit.1]
      rfl

theorem sameValues_iff (group : KeysectionT) :
    SameValues group ↔ ∀ id,
      (group.keys.reverse.find? fun key => lineFits key && decide (key.id = id)).map
        KeydataT.value = getKeyvalue group id := by
  refine forall_congr' fun id => ?_
  unfold getKeyvalue
  cases last : group.keys.find? fun key => decide (key.id = id) with
  | none =>
      have missing : (group.keys.reverse.find? fun key => lineFits key && decide (key.id = id)) =
          none := by
        rw [List.find?_eq_none] at last ⊢
        intro key member hit
        rw [Bool.and_eq_true] at hit
        exact last key (List.mem_reverse.mp member) hit.2
      rw [missing]
      exact ⟨fun _ => rfl, fun _ => nofun⟩
  | some key =>
      simp only [Option.mem_def, Option.some.injEq, forall_eq', Option.map_some,
        Option.map_eq_some_iff]

/-- The lookups in a section agree when no name of a key is trimmed and the order of its
assignments does not matter. -/
theorem lookups_iff {group group' : KeysectionT} (back : groupOf group' = resaved group)
    (loaded : ∀ key ∈ group.keys, LoadedKey key.id.bytes key.value.bytes) :
    (∀ id, getKeyvalue group' id = getKeyvalue group id) ↔
      (∀ key ∈ group.keys, ¬ endsInSpace key.id) ∧ SameValues group := by
  have bytes (id : CString) : (getKeyvalue group' id).map CString.bytes =
      (resaved group).lookup id.bytes := by
    rw [getKeyvalue_bytes, back]
  have names (same : ∀ id, getKeyvalue group' id = getKeyvalue group id) :
      ∀ key ∈ group.keys, ¬ endsInSpace key.id := by
    intro key member
    have found : (getKeyvalue group key.id).isSome = true := by
      rw [getKeyvalue, Option.isSome_map, List.find?_isSome]
      exact ⟨key, member, by simp⟩
    have there := congrArg Option.isSome (bytes key.id)
    rw [Option.isSome_map, same, found, Group.lookup, Option.isSome_map] at there
    obtain ⟨entry, listed, named⟩ := List.find?_isSome.mp there.symm
    obtain ⟨other, _, read⟩ := List.mem_filterMap.mp (List.mem_reverse.mp listed)
    have trimmed : rtrim other.id.bytes = key.id.bytes := by
      rw [← of_decide_eq_true named]
      unfold rereadKey at read
      split at read
      · cases read
        rfl
      · cases read
    exact rtrim_not_space trimmed
  have values (trimmed : ∀ key ∈ group.keys, ¬ endsInSpace key.id) (id : CString) :
      getKeyvalue group' id =
        (group.keys.reverse.find? fun key => lineFits key && decide (key.id = id)).map
          KeydataT.value := by
    refine Option.map_injective (fun _ _ => CString.ext) ?_
    rw [bytes, resaved_lookup loaded trimmed, Option.map_map]
    rfl
  rw [sameValues_iff]
  constructor
  · intro same
    have trimmed := names same
    exact ⟨trimmed, fun id => (values trimmed id).symm.trans (same id)⟩
  · rintro ⟨trimmed, same⟩ id
    exact (values trimmed id).trans (same id)

/-! ## Whole files -/

theorem ids_saved_iff {root : KeysectionT} {rest t' : List KeysectionT}
    (back : t'.map groupOf = outline (resaved root) (rest.flatMap savedReadings)) :
    t'.map KeysectionT.id = (root :: rest).map KeysectionT.id ↔
      ∀ group ∈ rest, (rereadId group.id).header? = some group.id.bytes := by
  have bytes : (t'.map KeysectionT.id).map CString.bytes =
      root.id.bytes :: rest.filterMap fun group => (rereadId group.id).header? := by
    have ids := congrArg (List.map Group.id) back
    rw [outline_ids, headers_saved, List.map_map] at ids
    rw [List.map_map]
    exact ids
  have injective : Function.Injective (List.map CString.bytes) :=
    List.map_injective_iff.mpr fun _ _ => CString.ext
  rw [← injective.eq_iff, bytes, List.map_map, List.map_cons, Function.comp_apply,
    List.cons_inj_right, List.filterMap_eq_map_iff_forall_eq_some]
  rfl

/-- A loaded file is saved without loss exactly when its names are read back and, for
every key of a section, the first assignment whose line fits into the buffer has the
value of the last one. -/
theorem keyfile_resave_iff (stack stack' : Memory UInt8) (file : List UInt8) :
    SameSections (loadKeyfile stack file)
        (loadKeyfile stack' (saveKeyfile (loadKeyfile stack file))) ↔
      Resavable (loadKeyfile stack file) := by
  obtain ⟨loaded, root, rest, split, star⟩ := load_cases stack file
  rw [split] at loaded ⊢
  have back := load_saved stack' loaded star
  generalize loadKeyfile stack' (saveKeyfile (root :: rest)) = t' at back ⊢
  have ids : t'.map KeysectionT.id = (root :: rest).map KeysectionT.id ↔
      ∀ group ∈ rest, 2 ≤ group.id.length ∧ ¬ endsInSpace group.id := by
    rw [ids_saved_iff back]
    exact forall₂_congr fun group _ => rereadId_iff group.id
  have sections (read : ∀ group ∈ rest, 2 ≤ group.id.length ∧ ¬ endsInSpace group.id) :
      List.Forall₂ (fun group group' => groupOf group' = resaved group) (root :: rest) t' := by
    have headers : ∀ group ∈ rest, rereadId group.id = .header group.id.bytes := by
      intro group member
      unfold rereadId
      rw [(rtrim_eq_iff group.id).mpr (read group member).2]
      exact if_pos (read group member).1
    rw [outline_saved headers] at back
    have same : List.Forall₂ (fun a b => b = a) ((root :: rest).map resaved) (t'.map groupOf) := by
      rw [back]
      exact List.forall₂_same.mpr fun _ _ => rfl
    rwa [List.forall₂_map_left_iff, List.forall₂_map_right_iff] at same
  have lookups (read : ∀ group ∈ rest, 2 ≤ group.id.length ∧ ¬ endsInSpace group.id) :
      List.Forall₂ (fun group group' => ∀ id, getKeyvalue group' id = getKeyvalue group id)
        (root :: rest) t' ↔
      ∀ group ∈ root :: rest, (∀ key ∈ group.keys, ¬ endsInSpace key.id) ∧ SameValues group :=
    forall₂_iff_left (sections read)
      fun group member group' same => lookups_iff same (loaded.keys group member)
  constructor
  · rintro ⟨names, values⟩
    have read := ids.mp names
    have kept := (lookups read).mp values
    exact ⟨read, fun group member => (kept group member).1, fun group member =>
      (kept group member).2⟩
  · rintro ⟨read, keys, values⟩
    exact ⟨ids.mpr read, (lookups read).mpr fun group member =>
      ⟨keys group member, values group member⟩⟩

/-- A key that is assigned twice comes back with its first value. -/
theorem keyfile_resave_swaps :
    let file : List UInt8 := [97, 98, 61, 49, 10, 97, 98, 61, 50, 10]
    let t := loadKeyfile (fun _ => 0) file
    let t' := loadKeyfile (fun _ => 0) (saveKeyfile t)
    (t.map fun group => getKeyvalue group ⟨[97, 98], by simp⟩) = [some ⟨[50], by simp⟩] ∧
    (t'.map fun group => getKeyvalue group ⟨[97, 98], by simp⟩) = [some ⟨[49], by simp⟩] ∧
    ¬ SameSections t t' := by
  intro file t t'
  have before : (t.map fun group => getKeyvalue group ⟨[97, 98], by simp⟩) =
      [some ⟨[50], by simp⟩] := by
    decide +kernel
  have after : (t'.map fun group => getKeyvalue group ⟨[97, 98], by simp⟩) =
      [some ⟨[49], by simp⟩] := by
    decide +kernel
  refine ⟨before, after, fun same => ?_⟩
  have equal : List.Forall₂ (· = ·) (t.map fun group => getKeyvalue group ⟨[97, 98], by simp⟩)
      (t'.map fun group => getKeyvalue group ⟨[97, 98], by simp⟩) := by
    rw [List.forall₂_map_left_iff, List.forall₂_map_right_iff]
    exact same.values.imp fun group group' agree => (agree _).symm
  rw [List.forall₂_eq_eq_eq, before, after] at equal
  exact absurd equal (by decide)

end CprFormal.Keyfile.Resave
