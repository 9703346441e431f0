import CprFormal.Keyfile.Grammar
import CprFormal.Strchar.Compare

/-!
# Keys put into a section and looked up

`make_keydata` stores a name in lower case and cut at 32 bytes; `get_keyvalue`
compares the caller's name byte by byte.  A stored value comes back under a name
that the store leaves alone, and under another name only where it was there before.
-/

namespace CprFormal.Keyfile.Store

open CprFormal.Keyfile.Grammar CprFormal.Keyfile.Model CprFormal.Library.Lists
open CprFormal.Strchar.Compare CprFormal.Strchar.Ctype CprFormal.Strchar.Strlen

/-- `cpr_lower(id, 32)` -/
def storedId (id : CString) : CString := cprLower id.char 0 32

/-- `make_keydata` on the caller's strings; the allocations of the key, of its name and of
its value are taken to succeed. -/
def makeKeydata (group : KeysectionT) (id value : CString) : KeysectionT :=
  Model.makeKeydata group (storedId id) value

/-- The first key of a section with exactly this name has this value. -/
def Holds (group : KeysectionT) (name : List UInt8) (value : CString) : Prop :=
  ∃ before key after, group.keys = before ++ key :: after ∧ key.id.bytes = name ∧
    key.value = value ∧ ∀ other ∈ before, other.id.bytes ≠ name

/-- A name that is stored as it is. -/
def Plain (id : CString) : Prop := id.length ≤ 32 ∧ ∀ b ∈ id.bytes, ¬ (65 ≤ b ∧ b ≤ 90)

theorem storedId_bytes (id : CString) :
    (storedId id).bytes = (id.bytes.take 32).map tolower := by
  have reads : Reads (fun j => id.char (0 + j)) id.bytes := reads_zero_add.mpr id.reads
  exact congrArg (List.map tolower) (textAt_bytes reads 32)

theorem storedId_eq_iff (id : CString) : storedId id = id ↔ Plain id := by
  rw [CString.ext_iff, storedId_bytes]
  constructor
  · intro same
    have short : id.length ≤ 32 := by
      have lengths := congrArg List.length same
      rw [List.length_map, List.length_take] at lengths
      unfold CString.length
      omega
    refine ⟨short, fun b member => ?_⟩
    rw [List.take_of_length_le short] at same
    exact (tolower_eq_self_iff b).mp (map_eq_self_iff.mp same b member)
  · rintro ⟨short, small⟩
    rw [List.take_of_length_le short]
    exact map_eq_self_iff.mpr fun b member => (tolower_eq_self_iff b).mpr (small b member)

/-- The stored name is another name, even without case, when it has been cut. -/
theorem storedId_matches_iff (id : CString) :
    cprMatch id (storedId id) = true ↔ id.length ≤ 32 :=
  cprMatch_cut_iff (storedId_bytes id) tolower_tolower

theorem getKeyvalue_eq_some_iff (group : KeysectionT) (id value : CString) :
    getKeyvalue group id = some value ↔ Holds group id.bytes value := by
  unfold getKeyvalue Holds
  rw [Option.map_eq_some_iff]
  constructor
  · rintro ⟨key, found, rfl⟩
    obtain ⟨named, before, after, split, none_before⟩ := List.find?_eq_some_iff_append.mp found
    refine ⟨before, key, after, split, ?_, rfl, fun other member => ?_⟩
    · exact congrArg CString.bytes (of_decide_eq_true named)
    · have apart := none_before other member
      intro same
      rw [decide_eq_true (CString.ext same)] at apart
      cases apart
  · rintro ⟨before, key, after, split, named, rfl, none_before⟩
    refine ⟨key, List.find?_eq_some_iff_append.mpr ⟨?_, before, after, split, ?_⟩, rfl⟩
    · exact decide_eq_true (CString.ext named)
    · intro other member
      have apart : ¬ other.id = id := fun same =>
        none_before other member (congrArg CString.bytes same)
      rw [decide_eq_false apart]
      rfl

/-- A new key changes what one name finds. -/
theorem getKeyvalue_makeKeydata (group : KeysectionT) (id value other : CString) :
    getKeyvalue (makeKeydata group id value) other =
      if other = storedId id then some value else getKeyvalue group other := by
  unfold makeKeydata Model.makeKeydata getKeyvalue
  rw [List.find?_cons]
  by_cases same : other = storedId id
  · rw [if_pos same, decide_eq_true same.symm]
    rfl
  · rw [if_neg same, decide_eq_false (Ne.symm same)]

/-- The value comes back under the caller's name. -/
theorem own_iff (group : KeysectionT) (id value : CString) :
    getKeyvalue (makeKeydata group id value) id = some value ↔
      Plain id ∨ Holds group id.bytes value := by
  rw [getKeyvalue_makeKeydata, ← storedId_eq_iff, ← getKeyvalue_eq_some_iff]
  by_cases same : id = storedId id
  · rw [if_pos same]
    exact ⟨fun _ => .inl same.symm, fun _ => rfl⟩
  · rw [if_neg same]
    exact ⟨.inr, fun either => either.resolve_left (Ne.symm same)⟩

/-- The other names find what they found before. -/
theorem others_iff (group : KeysectionT) (id value : CString) :
    (∀ other, cprMatch id other = false →
      getKeyvalue (makeKeydata group id value) other = getKeyvalue group other) ↔
      id.length ≤ 32 ∨ Holds group ((id.bytes.take 32).map tolower) value := by
  rw [← storedId_bytes, ← getKeyvalue_eq_some_iff, ← storedId_matches_iff]
  constructor
  · intro kept
    by_cases same : cprMatch id (storedId id) = true
    · exact .inl same
    · have cut := kept (storedId id) (Bool.not_eq_true _ ▸ same)
      rw [getKeyvalue_makeKeydata, if_pos rfl] at cut
      exact .inr cut.symm
  · intro either other apart
    rw [getKeyvalue_makeKeydata]
    by_cases named : other = storedId id
    · rw [if_pos named]
      rcases either with same | held
      · rw [named, same] at apart
        cases apart
      · rw [named, held]
    · rw [if_neg named]

/-- A put is undone by a get, and seen by no other name, for the names that are stored
as they are and where the section held the value already. -/
theorem makeKeydata_laws_iff (group : KeysectionT) (id value : CString) :
    (getKeyvalue (makeKeydata group id value) id = some value ∧
      ∀ other, cprMatch id other = false →
        getKeyvalue (makeKeydata group id value) other = getKeyvalue group other) ↔
      (Plain id ∨ Holds group id.bytes value) ∧
      (id.length ≤ 32 ∨ Holds group ((id.bytes.take 32).map tolower) value) :=
  and_congr (own_iff group id value) (others_iff group id value)

/-- A value put under `A` is not found under `A`. -/
theorem makeKeydata_capital :
    getKeyvalue (makeKeydata rootSection ⟨[65], by simp⟩ ⟨[120], by simp⟩) ⟨[65], by simp⟩ ≠
      some ⟨[120], by simp⟩ := by
  decide

end CprFormal.Keyfile.Store
