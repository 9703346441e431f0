import Mathlib.Data.List.Nodup
import CprFormal.Keyfile.Saved

/-!
# Saving and loading a key file

Loading what was saved brings back the sections in their order and the keys of
every section in reversed order, for all names and values within the limits of the
line buffer: the quotes that are written around a value keep its own quotes and
blanks from being taken off.
-/

namespace CprFormal.Keyfile.RoundTrip

open CprFormal.Library.FlatMemory
open CprFormal.Strchar.Ctype CprFormal.Strchar.Strlen
open CprFormal.Keyfile.Model CprFormal.Keyfile.Grammar CprFormal.Keyfile.Outline
open CprFormal.Keyfile.Loaded CprFormal.Keyfile.Saved

/-- A key that is written and read back without change. -/
structure NormalKey (key : KeydataT) : Prop where
  long : 2 ≤ key.id.length
  short : key.id.length ≤ 32
  lower : key.id.bytes.map tolower = key.id.bytes
  first : ∀ b ∈ key.id.bytes.head?, isalnum b = true
  last : ∀ b ∈ key.id.bytes.getLast?, isspace b = false
  noEquals : 61 ∉ key.id.bytes
  oneLine : 10 ∉ key.id.bytes ∧ 10 ∉ key.value.bytes
  fits : key.id.length + key.value.length + 4 ≤ 95

/-- The name of a section that is written and read back without change. -/
structure NormalId (id : CString) : Prop where
  long : 2 ≤ id.length
  short : id.length ≤ 32
  upper : id.bytes.map toupper = id.bytes
  first : ∀ b ∈ id.bytes.head?, isspace b = false
  last : ∀ b ∈ id.bytes.getLast?, isspace b = false
  oneLine : 10 ∉ id.bytes

structure NormalKeys (group : KeysectionT) : Prop where
  keys : ∀ key ∈ group.keys, NormalKey key
  distinct : (group.keys.map KeydataT.id).Nodup

theorem NormalKey.loaded {key : KeydataT} (normal : NormalKey key) :
    LoadedKey key.id.bytes key.value.bytes where
  long := normal.long
  short := normal.short
  lower := normal.lower
  first := normal.first
  noEquals := normal.noEquals
  oneLine := normal.oneLine
  fits := Nat.le_trans (by unfold CString.length; omega) normal.fits

theorem NormalId.loaded {id : CString} (normal : NormalId id) : LoadedId id.bytes where
  short := normal.short
  upper := normal.upper
  first := normal.first
  oneLine := normal.oneLine

theorem rereadKey_normal {key : KeydataT} (normal : NormalKey key) :
    rereadKey key = .key key.id.bytes key.value.bytes := by
  have trimmed : rtrim key.id.bytes = key.id.bytes := rtrim_last normal.last
  unfold rereadKey
  rw [trimmed]
  exact if_pos ⟨decide_eq_true normal.fits, normal.long⟩

theorem rereadId_normal {id : CString} (normal : NormalId id) :
    rereadId id = .header id.bytes := by
  have trimmed : rtrim id.bytes = id.bytes := rtrim_last normal.last
  unfold rereadId
  rw [trimmed]
  exact if_pos normal.long

/-- A section with its keys the other way round. -/
def reversed (group : KeysectionT) : KeysectionT := { group with keys := group.keys.reverse }

theorem groupOf_injective : Function.Injective groupOf := by
  rintro ⟨id, keys⟩ ⟨id', keys'⟩ same
  obtain ⟨ids, entries⟩ := Group.mk.inj same
  have injective : Function.Injective fun key : KeydataT => (key.id.bytes, key.value.bytes) := by
    rintro ⟨a, b⟩ ⟨a', b'⟩ pair
    obtain ⟨first, second⟩ := Prod.mk.inj pair
    exact congrArg₂ KeydataT.mk (CString.ext first) (CString.ext second)
  exact congrArg₂ KeysectionT.mk (CString.ext ids)
    (List.map_injective_iff.mpr injective entries)

theorem resaved_normal {group : KeysectionT} (normal : ∀ key ∈ group.keys, NormalKey key) :
    resaved group = groupOf (reversed group) := by
  have kept : (group.keys.filterMap fun key => (rereadKey key).assignment?) =
      group.keys.map fun key => (key.id.bytes, key.value.bytes) := by
    rw [List.filterMap_eq_map_iff_forall_eq_some]
    intro key member
    rw [rereadKey_normal (normal key member)]
    rfl
  unfold resaved groupOf reversed
  rw [kept, List.map_reverse]

/-- With distinct names the order of the keys does not matter for a lookup. -/
theorem getKeyvalue_reversed {group : KeysectionT}
    (distinct : (group.keys.map KeydataT.id).Nodup) (id : CString) :
    getKeyvalue (reversed group) id = getKeyvalue group id := by
  have unique {a b : KeydataT} (ha : a ∈ group.keys) (hb : b ∈ group.keys)
      (same : a.id = b.id) : a = b := List.inj_on_of_nodup_map distinct ha hb same
  refine congrArg (Option.map KeydataT.value) ?_
  change group.keys.reverse.find? _ = group.keys.find? _
  cases found : group.keys.find? fun key => decide (key.id = id) with
  | none =>
      have missing := List.find?_eq_none.mp found
      exact List.find?_eq_none.mpr fun key member => missing key (List.mem_reverse.mp member)
  | some key =>
      have member := List.mem_of_find?_eq_some found
      have named : key.id = id := by simpa using List.find?_some found
      cases other : group.keys.reverse.find? fun key => decide (key.id = id) with
      | none =>
          have missing := List.find?_eq_none.mp other key (List.mem_reverse.mpr member)
          exact absurd (decide_eq_true named) missing
      | some last =>
          have stored := List.mem_reverse.mp (List.mem_of_find?_eq_some other)
          have same : last.id = id := by simpa using List.find?_some other
          rw [unique stored member (same.trans named.symm)]

/-- Loading the file that was saved from normal sections yields the sections in
their order, each with its keys reversed, and every lookup in them agrees. -/
theorem keyfile_save_load (root : KeysectionT) (rest : List KeysectionT)
    (star : root.id.bytes = [42]) (ids : ∀ group ∈ rest, NormalId group.id)
    (keys : ∀ group ∈ root :: rest, NormalKeys group) (stack : Memory UInt8) :
    loadKeyfile stack (saveKeyfile (root :: rest)) = (root :: rest).map reversed ∧
    ∀ id, (loadKeyfile stack (saveKeyfile (root :: rest))).map (getKeyvalue · id) =
      (root :: rest).map (getKeyvalue · id) := by
  have loaded : loadKeyfile stack (saveKeyfile (root :: rest)) = (root :: rest).map reversed := by
    have sections : LoadedSections (root :: rest) := by
      refine ⟨fun group member => ?_, fun group member key stored =>
        ((keys group member).keys key stored).loaded⟩
      rcases List.mem_cons.mp member with rfl | named
      · rw [star]
        exact root_loaded
      · exact (ids group named).loaded
    have back := load_saved stack sections star
    rw [outline_saved fun group member => rereadId_normal (ids group member)] at back
    refine List.map_injective_iff.mpr groupOf_injective (back.trans ?_)
    rw [List.map_map]
    exact List.map_congr_left fun group member =>
      resaved_normal (keys group member).keys
  refine ⟨loaded, fun id => ?_⟩
  rw [loaded, List.map_map]
  refine List.map_congr_left fun group member => ?_
  exact getKeyvalue_reversed (keys group member).distinct id

/-- A root section, and a section with a value that has both quotes and a blank at
its end. -/
theorem keyfile_save_load_quotes :
    let root : KeysectionT := ⟨⟨[42], by simp⟩, []⟩
    let group : KeysectionT := ⟨⟨[65, 66], by simp⟩,
      [⟨⟨[107, 49], by simp⟩, ⟨[39, 34, 32], by simp⟩⟩, ⟨⟨[107, 50], by simp⟩, ⟨[], by simp⟩⟩]⟩
    loadKeyfile (fun _ => 0) (saveKeyfile [root, group]) = [root, reversed group] := by
  refine (keyfile_save_load _ [_] rfl ?_ ?_ _).1
  · intro group member
    cases List.mem_singleton.mp member
    exact ⟨by decide, by decide, by decide, by rintro b ⟨⟩; rfl, by rintro b ⟨⟩; rfl, by simp⟩
  · intro group member
    rcases List.mem_cons.mp member with rfl | member
    · exact ⟨by simp, by simp⟩
    · cases List.mem_singleton.mp member
      refine ⟨fun key stored => ?_, by simp⟩
      simp only [List.mem_cons, List.not_mem_nil, or_false] at stored
      rcases stored with rfl | rfl
      · exact ⟨by decide, by decide, by decide, by rintro b ⟨⟩; rfl, by rintro b ⟨⟩; rfl, by simp,
          by simp, by decide⟩
      · exact ⟨by decide, by decide, by decide, by rintro b ⟨⟩; rfl, by rintro b ⟨⟩; rfl, by simp,
          by simp, by decide⟩

end CprFormal.Keyfile.RoundTrip
