import CprFormal.Keyfile.Model
import CprFormal.Library.Freeing
import CprFormal.Library.LinkedList
import CprFormal.Library.Transition

/-!
# What `free_keyfile` frees

The blocks of a key file are those `make_keysection` and `make_keydata` have allocated: one
for every section and every key, and one for each of their texts.  `free_keyfile` frees
every text and every key, each once, and reads none of them afterwards.  The sections
themselves it does not free, so nothing is left behind only when there is no section.
-/

namespace CprFormal.Keyfile.Freeing

open CprFormal.Keyfile.Model
open CprFormal.Library.FlatMemory CprFormal.Library.Freeing CprFormal.Library.LinkedList
open CprFormal.Library.Transition

/-- A `keysection_t`, its pointers as addresses of blocks. -/
structure SectionBlock where
  next : Option Nat
  keys : Option Nat
  id : Nat

/-- A `keydata_t`, its pointers as addresses of blocks. -/
structure KeyBlock where
  next : Option Nat
  id : Nat
  value : Nat

structure Heap where
  sections : Memory SectionBlock
  keys : Memory KeyBlock

/-- `make_keysection`, where `malloc` gives `section` and `cpr_upper` gives `id`. -/
def makeKeysection (heap : Heap) (prior : Option Nat) (block id : Nat) : Heap :=
  let sections := match prior with
    | some a => heap.sections.set a { heap.sections a with next := some block }
    | none => heap.sections
  { heap with sections := sections.set block ⟨none, none, id⟩ }

/-- `make_keydata`, where `malloc` gives `key`, `cpr_lower` gives `id` and `strdup` gives
`value`. -/
def makeKeydata (heap : Heap) (group key id value : Nat) : Heap where
  keys := heap.keys.set key ⟨(heap.sections group).keys, id, value⟩
  sections := heap.sections.set group { heap.sections group with keys := some key }

/-- The inner loop of `free_keyfile`, or `none` when the fuel is used up. -/
def freeKeys (heap : Heap) : Nat → Option Nat → Option (List (Access Nat))
  | 0, _ => none
  | _ + 1, none => some []
  | fuel + 1, some key => do
      let rest ← freeKeys heap fuel (heap.keys key).next
      some ([.read key, .read key, .free (heap.keys key).id, .read key,
        .free (heap.keys key).value, .free key] ++ rest)

/-- `free_keyfile` -/
def freeKeyfile (heap : Heap) : Nat → Option Nat → Option (List (Access Nat))
  | 0, _ => none
  | _ + 1, none => some []
  | fuel + 1, some root => do
      let keys ← freeKeys heap fuel (heap.sections root).keys
      let rest ← freeKeyfile heap fuel (heap.sections root).next
      some ([.read root, .read root] ++ keys ++ [.read root, .free (heap.sections root).id] ++ rest)

/-- A call with the blocks it allocates. -/
inductive Call where
  | makeKeysection (block id : Nat)
  | makeKeydata (group key id value : Nat)

/-- The memory, the sections in the order in which they were made, and all blocks that
have been allocated. -/
structure Building where
  heap : Heap
  made : List Nat
  allocated : List Nat

/-- What the first `make_keysection` has returned. -/
def Building.root (s : Building) : Option Nat := s.made.head?

/-- What the last `make_keysection` has returned. -/
def Building.last (s : Building) : Option Nat := s.made.getLast?

/-- Different blocks that are not in use. -/
def Fresh (s : Building) (blocks : List Nat) : Prop := (blocks ++ s.allocated).Nodup

/-- A section is made behind the last one, a key in any section. -/
inductive Step : Building → Call → Building → Prop where
  | makeKeysection {s : Building} {block id : Nat} (fresh : Fresh s [block, id]) :
      Step s (.makeKeysection block id)
        ⟨makeKeysection s.heap s.last block id, s.made ++ [block], [block, id] ++ s.allocated⟩
  | makeKeydata {s : Building} {group key id value : Nat} (member : group ∈ s.made)
      (fresh : Fresh s [key, id, value]) :
      Step s (.makeKeydata group key id value)
        ⟨makeKeydata s.heap group key id value, s.made, [key, id, value] ++ s.allocated⟩

def system : System Building Call where
  init s := s.made = [] ∧ s.allocated = []
  step := Step

/-- What the lines bring that `load_keyfile` reads. -/
def entries : Memory UInt8 → List (List UInt8) → List Entry
  | _, [] => []
  | mem, line :: lines =>
      let (mem, entry) := parseLine (mem.write 0 (line ++ [0]))
      entry :: entries mem lines

/-- What an entry does to the sections before the current one and to the current one. -/
def put (loaded : List KeysectionT × KeysectionT) : Entry → List KeysectionT × KeysectionT
  | .skip => loaded
  | .header id => (loaded.1 ++ [loaded.2], ⟨id, []⟩)
  | .key id value => (loaded.1, Model.makeKeydata loaded.2 id value)

/-- `load_keyfile` works off the entries. -/
theorem foldl_loadLine (s : Loading) (lines : List (List UInt8)) :
    ((lines.foldl loadLine s).before, (lines.foldl loadLine s).current) =
      (entries s.mem lines).foldl put (s.before, s.current) := by
  induction lines generalizing s with
  | nil => rfl
  | cons line lines ih =>
      rw [List.foldl_cons, ih, entries, List.foldl_cons]
      unfold loadLine
      obtain ⟨mem, entry⟩ := parseLine (s.mem.write 0 (line ++ [0]))
      cases entry with
      | skip | header | key => rfl

/-- The calls of `load_keyfile`: the first section, then one behind it for each header, and
the keys in the current one. -/
inductive Loads : List Entry → Building → Prop where
  | root {s s' : Building} {block id : Nat} (init : system.init s)
      (step : Step s (.makeKeysection block id) s') : Loads [] s'
  | skip {read : List Entry} {s : Building} (loads : Loads read s) : Loads (read ++ [.skip]) s
  | header {read : List Entry} {s s' : Building} {name : Strchar.Strlen.CString}
      {block id : Nat} (loads : Loads read s) (step : Step s (.makeKeysection block id) s') :
      Loads (read ++ [.header name]) s'
  | key {read : List Entry} {s s' : Building} {name text : Strchar.Strlen.CString}
      {current key id value : Nat} (loads : Loads read s) (last : s.last = some current)
      (step : Step s (.makeKeydata current key id value) s') :
      Loads (read ++ [.key name text]) s'

/-- `free_keyfile` ends and releases what the builders have allocated. -/
def Released (s : Building) : Prop :=
  ∃ trace, (∀ fuel, s.allocated.length < fuel → freeKeyfile s.heap fuel s.root = some trace) ∧
    Releases trace s.allocated

/-! ## The shape of a key file and what is freed of it -/

structure KeyNode where
  block : Nat
  id : Nat
  value : Nat

structure SectionNode where
  block : Nat
  id : Nat
  keys : List KeyNode

def KeyNode.owned (key : KeyNode) : List Nat := [key.block, key.id, key.value]

def SectionNode.owned (group : SectionNode) : List Nat :=
  group.block :: group.id :: group.keys.flatMap KeyNode.owned

def KeyNode.trace (key : KeyNode) : List (Access Nat) :=
  [.read key.block, .read key.block, .free key.id, .read key.block, .free key.value,
    .free key.block]

def SectionNode.trace (group : SectionNode) : List (Access Nat) :=
  [.read group.block, .read group.block] ++ group.keys.flatMap KeyNode.trace ++
    [.read group.block, .free group.id]

def Heap.nextSection (heap : Heap) (a : Nat) : Option Nat := (heap.sections a).next

def Heap.nextKey (heap : Heap) (a : Nat) : Option Nat := (heap.keys a).next

/-- A key stands in its block. -/
def KeyNode.Held (heap : Heap) (key : KeyNode) : Prop :=
  (heap.keys key.block).id = key.id ∧ (heap.keys key.block).value = key.value

/-- A section stands in its block, with its keys behind it. -/
structure SectionNode.Held (heap : Heap) (group : SectionNode) : Prop where
  id : (heap.sections group.block).id = group.id
  chain : Chain heap.nextKey (heap.sections group.block).keys (group.keys.map KeyNode.block)
  keys : ∀ key ∈ group.keys, key.Held heap

/-- The sections of a list, one behind the other. -/
structure Layout (heap : Heap) (root : Option Nat) (groups : List SectionNode) : Prop where
  chain : Chain heap.nextSection root (groups.map SectionNode.block)
  held : ∀ group ∈ groups, group.Held heap

theorem freeKeys_eq {heap : Heap} {start : Option Nat} {keys : List KeyNode}
    (chain : Chain heap.nextKey start (keys.map KeyNode.block))
    (held : ∀ key ∈ keys, key.Held heap) {fuel : Nat} (enough : keys.length < fuel) :
    freeKeys heap fuel start = some (keys.flatMap KeyNode.trace) := by
  induction keys generalizing start fuel with
  | nil =>
      obtain ⟨fuel, rfl⟩ := Nat.exists_eq_add_one.mpr (Nat.zero_lt_of_lt enough)
      rw [show start = none from chain]
      rfl
  | cons key keys ih =>
      obtain ⟨fuel, rfl⟩ := Nat.exists_eq_add_one.mpr (Nat.zero_lt_of_lt enough)
      obtain ⟨first, behind⟩ := chain
      obtain ⟨id, value⟩ := held key List.mem_cons_self
      have rest := ih behind (fun k member => held k (List.mem_cons_of_mem key member))
        (Nat.lt_of_succ_lt_succ enough)
      rw [first, freeKeys, show (heap.keys key.block).next = heap.nextKey key.block from rfl, rest,
        id, value]
      rfl

theorem length_le_owned (keys : List KeyNode) :
    keys.length ≤ (keys.flatMap KeyNode.owned).length := by
  induction keys with
  | nil => exact Nat.le_refl _
  | cons key keys ih =>
      rw [List.flatMap_cons, List.length_append, List.length_cons, Nat.add_comm]
      exact Nat.add_le_add (by decide : 1 ≤ 3) ih

theorem freeKeyfile_eq {heap : Heap} {root : Option Nat} {groups : List SectionNode}
    (layout : Layout heap root groups) {fuel : Nat}
    (enough : (groups.flatMap SectionNode.owned).length < fuel) :
    freeKeyfile heap fuel root = some (groups.flatMap SectionNode.trace) := by
  induction groups generalizing root fuel with
  | nil =>
      obtain ⟨fuel, rfl⟩ := Nat.exists_eq_add_one.mpr (Nat.zero_lt_of_lt enough)
      rw [show root = none from layout.chain]
      rfl
  | cons group groups ih =>
      obtain ⟨fuel, rfl⟩ := Nat.exists_eq_add_one.mpr (Nat.zero_lt_of_lt enough)
      obtain ⟨first, behind⟩ := layout.chain
      have here := layout.held group List.mem_cons_self
      have size := length_le_owned group.keys
      have length : ((group :: groups).flatMap SectionNode.owned).length =
          (group.keys.flatMap KeyNode.owned).length + 2 +
            (groups.flatMap SectionNode.owned).length := by
        rw [List.flatMap_cons, List.length_append]
        rfl
      have later : Layout heap (heap.nextSection group.block) groups :=
        ⟨behind, fun g member => layout.held g (List.mem_cons_of_mem group member)⟩
      have keys := @freeKeys_eq heap _ group.keys here.chain here.keys fuel (by omega)
      have rest := @ih _ later fuel (by omega)
      rw [first, freeKeyfile, keys,
        show (heap.sections group.block).next = heap.nextSection group.block from rfl, rest, here.id]
      rfl

theorem KeyNode.frees_trace (key : KeyNode) : (frees key.trace).Perm key.owned :=
  @List.perm_append_comm _ [key.id, key.value] [key.block]

/-- Of the blocks of a section, its own is missing. -/
theorem SectionNode.frees_trace (group : SectionNode) :
    (group.block :: frees group.trace).Perm group.owned := by
  unfold trace owned
  rw [frees_append, frees_append, frees_flatMap]
  refine List.Perm.cons _ ?_
  refine List.perm_append_comm.trans (List.Perm.cons _ ?_)
  exact List.Perm.flatMap_left _ fun key _ => key.frees_trace

theorem frees_sections (groups : List SectionNode) :
    (groups.map SectionNode.block ++ frees (groups.flatMap SectionNode.trace)).Perm
      (groups.flatMap SectionNode.owned) := by
  rw [frees_flatMap]
  induction groups with
  | nil => exact List.Perm.refl _
  | cons group groups ih =>
      rw [List.map_cons, List.flatMap_cons, List.flatMap_cons, List.cons_append]
      have inner := (List.perm_append_comm_assoc (groups.map SectionNode.block)
        (frees group.trace) (groups.flatMap fun g => frees g.trace)).cons group.block
      exact inner.trans (group.frees_trace.append ih)

theorem KeyNode.orderly {key : KeyNode} (distinct : key.owned.Nodup) : Orderly key.trace := by
  have apart : key.id ≠ key.block := fun same =>
    (List.nodup_cons.mp distinct).1 (same ▸ List.mem_cons_self)
  simp [Orderly, KeyNode.trace, Before, apart.symm]

theorem KeyNode.trace_owned (key : KeyNode) : ∀ x ∈ key.trace, x.address ∈ key.owned := by
  simp [KeyNode.trace, KeyNode.owned, Access.address]

theorem keys_trace_owned (keys : List KeyNode) :
    ∀ x ∈ keys.flatMap KeyNode.trace, x.address ∈ keys.flatMap KeyNode.owned := by
  intro x member
  obtain ⟨key, inside, here⟩ := List.mem_flatMap.mp member
  exact List.mem_flatMap.mpr ⟨key, inside, key.trace_owned x here⟩

theorem SectionNode.trace_owned (group : SectionNode) :
    ∀ x ∈ group.trace, x.address ∈ group.owned := by
  intro x member
  unfold trace at member
  unfold owned
  rcases List.mem_append.mp member with front | back
  · rcases List.mem_append.mp front with reads | keys
    · rcases List.mem_pair.mp reads with rfl | rfl
      · exact List.mem_cons_self
      · exact List.mem_cons_self
    · exact .tail _ (.tail _ (keys_trace_owned group.keys x keys))
  · rcases List.mem_pair.mp back with rfl | rfl
    · exact List.mem_cons_self
    · exact .tail _ List.mem_cons_self

/-- The keys are freed while only the block of the section is still read. -/
theorem SectionNode.orderly {group : SectionNode} (distinct : group.owned.Nodup) :
    Orderly group.trace := by
  obtain ⟨apart, distinct⟩ := List.nodup_cons.mp distinct
  have keys : (group.keys.flatMap KeyNode.owned).Nodup := (List.nodup_cons.mp distinct).2
  have inner : Orderly (group.keys.flatMap KeyNode.trace) :=
    orderly_flatMap (fun key member => KeyNode.orderly ((List.nodup_flatMap.mp keys).1 key member))
      KeyNode.trace_owned keys
  refine List.pairwise_append.mpr ⟨List.pairwise_append.mpr ⟨?_, inner, ?_⟩, ?_, ?_⟩
  · exact List.pairwise_pair.mpr (before_read _ _)
  · intro x first y _
    rcases List.mem_pair.mp first with rfl | rfl
    · exact before_read _ y
    · exact before_read _ y
  · exact List.pairwise_pair.mpr (before_read _ _)
  · intro x first y second
    rcases List.mem_pair.mp second with rfl | rfl
    · rcases List.mem_append.mp first with reads | freed
      · rcases List.mem_pair.mp reads with rfl | rfl
        · exact before_read _ _
        · exact before_read _ _
      · refine before_of_ne fun same => apart (.tail _ ?_)
        have address := keys_trace_owned group.keys x freed
        rwa [same] at address
    · exact before_free x _

theorem sections_orderly {groups : List SectionNode}
    (distinct : (groups.flatMap SectionNode.owned).Nodup) :
    Orderly (groups.flatMap SectionNode.trace) := by
  have each := (List.nodup_flatMap.mp distinct).1
  exact orderly_flatMap (fun group member => SectionNode.orderly (each group member))
    SectionNode.trace_owned distinct

/-! ## What the builders keep -/

/-- The sections that were made, one behind the other, own what was allocated. -/
structure Built (s : Building) (groups : List SectionNode) : Prop where
  layout : Layout s.heap s.root groups
  made : groups.map SectionNode.block = s.made
  owned : (groups.flatMap SectionNode.owned).Perm s.allocated
  distinct : s.allocated.Nodup

section Steps

variable {s : Building} {groups : List SectionNode}

theorem Built.not_owned (built : Built s groups) {a : Nat} (unused : a ∉ s.allocated) :
    ∀ group ∈ groups, a ∉ group.owned := by
  intro group member inside
  exact unused (built.owned.subset (List.mem_flatMap.mpr ⟨group, member, inside⟩))

/-- A section that keeps its keys and its text is held as before. -/
theorem SectionNode.Held.congr {heap heap' : Heap} {group : SectionNode} (held : group.Held heap)
    (same : (heap'.sections group.block).id = (heap.sections group.block).id ∧
      (heap'.sections group.block).keys = (heap.sections group.block).keys)
    (keys : ∀ key ∈ group.keys, heap'.keys key.block = heap.keys key.block) :
    group.Held heap' where
  id := same.1.trans held.id
  chain := by
    rw [same.2]
    refine held.chain.congr fun a member => ?_
    obtain ⟨key, inside, rfl⟩ := List.mem_map.mp member
    exact congrArg KeyBlock.next (keys key inside)
  keys key inside := by
    unfold KeyNode.Held
    rw [keys key inside]
    exact held.keys key inside

theorem makeKeysection_same (heap : Heap) (prior : Option Nat) (block id : Nat) :
    (makeKeysection heap prior block id).sections block = ⟨none, none, id⟩ :=
  Memory.set_same _ _ _

/-- Of the other sections, only the link of the last one changes. -/
theorem makeKeysection_other (heap : Heap) (prior : Option Nat) {block a : Nat} (id : Nat)
    (other : a ≠ block) :
    (makeKeysection heap prior block id).sections a =
      if prior = some a then { heap.sections a with next := some block } else heap.sections a := by
  unfold makeKeysection
  dsimp only
  rw [Memory.set_other _ _ other]
  cases prior with
  | none => rfl
  | some b =>
      dsimp only
      by_cases same : b = a
      · subst same
        rw [Memory.set_same, if_pos rfl]
      · rw [Memory.set_other _ _ (Ne.symm same), if_neg fun h => same (Option.some.inj h)]

/-- The new section comes behind the last one. -/
theorem makeKeysection_chain (built : Built s groups) {block : Nat} (id : Nat)
    (unused : block ∉ s.allocated) :
    Chain (makeKeysection s.heap s.last block id).nextSection (s.made ++ [block]).head?
      (s.made ++ [block]) := by
  have ends : (makeKeysection s.heap s.last block id).nextSection block = none :=
    congrArg SectionBlock.next (makeKeysection_same s.heap s.last block id)
  have chain := built.layout.chain
  rw [built.made] at chain
  have apart (a : Nat) (member : a ∈ s.made) : a ≠ block := by
    rw [← built.made] at member
    obtain ⟨group, inside, rfl⟩ := List.mem_map.mp member
    intro same
    exact built.not_owned unused group inside (same ▸ List.mem_cons_self)
  unfold Building.root at chain
  unfold Building.last at ends ⊢
  rcases List.eq_nil_or_concat s.made with none | ⟨front, last, split⟩
  · rw [none] at ends ⊢
    exact ⟨rfl, ends⟩
  · rw [List.concat_eq_append] at split
    rw [split] at chain ends apart ⊢
    rw [List.getLast?_concat] at ends ⊢
    have head : (front ++ [last] ++ [block]).head? = (front ++ [last]).head? := by
      cases front with
      | nil => rfl
      | cons first front => rfl
    rw [head, List.append_assoc]
    have distinct := chain.nodup
    have away := apart last (List.mem_append_right _ List.mem_cons_self)
    refine chain.redirect (fun a member => ?_) (?_ : _ = some block) ⟨rfl, ends⟩
    · have notLast : a ≠ last := fun same =>
        (List.nodup_append.mp distinct).2.2 a member last List.mem_cons_self same
      unfold Heap.nextSection
      rw [makeKeysection_other _ _ _ (apart a (List.mem_append_left _ member)),
        if_neg fun h => notLast (Option.some.inj h).symm]
    · unfold Heap.nextSection
      rw [makeKeysection_other _ _ _ away, if_pos rfl]

theorem makeKeysection_built (built : Built s groups) {block id : Nat}
    (fresh : Fresh s [block, id]) :
    Built ⟨makeKeysection s.heap s.last block id, s.made ++ [block],
      [block, id] ++ s.allocated⟩ (groups ++ [⟨block, id, []⟩]) where
  layout := by
    have unused : block ∉ s.allocated := fun used =>
      (List.nodup_cons.mp fresh).1 (List.mem_cons_of_mem id used)
    refine ⟨?_, fun group member => ?_⟩
    · rw [List.map_append, built.made]
      exact makeKeysection_chain built id unused
    · rcases List.mem_append.mp member with old | new
      · refine (built.layout.held group old).congr ?_ fun _ _ => rfl
        have other : group.block ≠ block := fun same =>
          built.not_owned unused group old (same ▸ List.mem_cons_self)
        rw [makeKeysection_other s.heap s.last id other]
        split
        · exact ⟨rfl, rfl⟩
        · exact ⟨rfl, rfl⟩
      · rw [List.mem_singleton.mp new]
        have same := makeKeysection_same s.heap s.last block id
        exact ⟨congrArg SectionBlock.id same, congrArg SectionBlock.keys same, nofun⟩
  made := by
    rw [List.map_append, built.made]
    rfl
  owned := by
    rw [List.flatMap_append]
    exact List.perm_append_comm.trans (built.owned.append_left [block, id])
  distinct := fresh

theorem makeKeydata_section (heap : Heap) (group key id value : Nat) :
    (makeKeydata heap group key id value).sections group =
      { heap.sections group with keys := some key } :=
  Memory.set_same _ _ _

theorem makeKeydata_other (heap : Heap) {group a : Nat} (key id value : Nat) (other : a ≠ group) :
    (makeKeydata heap group key id value).sections a = heap.sections a :=
  Memory.set_other _ _ other

theorem makeKeydata_next (heap : Heap) (group key id value : Nat) :
    (makeKeydata heap group key id value).nextSection = heap.nextSection := by
  funext a
  unfold Heap.nextSection
  by_cases same : a = group
  · rw [same, makeKeydata_section]
  · rw [makeKeydata_other heap key id value same]

/-- The new key comes before the others of its section. -/
theorem SectionNode.Held.key {heap : Heap} {node : SectionNode} (held : node.Held heap)
    {key : Nat} (unused : key ∉ node.owned) (id value : Nat) :
    SectionNode.Held (makeKeydata heap node.block key id value)
      ⟨node.block, node.id, ⟨key, id, value⟩ :: node.keys⟩ := by
  have new : (makeKeydata heap node.block key id value).keys key =
      ⟨(heap.sections node.block).keys, id, value⟩ := Memory.set_same _ _ _
  have old (k : KeyNode) (member : k ∈ node.keys) :
      (makeKeydata heap node.block key id value).keys k.block = heap.keys k.block := by
    refine Memory.set_other _ _ fun same => unused (.tail _ (.tail _ ?_))
    exact List.mem_flatMap.mpr ⟨k, member, same ▸ List.mem_cons_self⟩
  have here := makeKeydata_section heap node.block key id value
  refine ⟨(congrArg SectionBlock.id here).trans held.id, ⟨congrArg SectionBlock.keys here, ?_⟩, ?_⟩
  · unfold Heap.nextKey
    rw [new]
    refine held.chain.congr fun a member => ?_
    obtain ⟨k, inside, rfl⟩ := List.mem_map.mp member
    exact congrArg KeyBlock.next (old k inside)
  · intro k member
    unfold KeyNode.Held
    rcases List.mem_cons.mp member with rfl | inside
    · rw [new]
      exact ⟨rfl, rfl⟩
    · rw [old k inside]
      exact held.keys k inside

theorem owned_key_perm (node : SectionNode) (key : KeyNode) :
    (SectionNode.owned ⟨node.block, node.id, key :: node.keys⟩).Perm (key.owned ++ node.owned) := by
  unfold SectionNode.owned
  rw [List.flatMap_cons]
  exact List.perm_append_comm_assoc [node.block, node.id] key.owned _

theorem makeKeydata_built (built : Built s groups) {group key id value : Nat}
    (member : group ∈ s.made) (fresh : Fresh s [key, id, value]) :
    ∃ groups', Built ⟨makeKeydata s.heap group key id value, s.made,
      [key, id, value] ++ s.allocated⟩ groups' := by
  have unused : key ∉ s.allocated := fun used =>
    (List.nodup_cons.mp fresh).1 (List.mem_append_right [id, value] used)
  have made := built.made
  rw [← made] at member
  obtain ⟨node, inside, rfl⟩ := List.mem_map.mp member
  obtain ⟨front, back, split⟩ := List.append_of_mem inside
  have blocks : (front ++ ⟨node.block, node.id, ⟨key, id, value⟩ :: node.keys⟩ :: back).map
      SectionNode.block = groups.map SectionNode.block := by
    rw [split, List.map_append, List.map_append, List.map_cons, List.map_cons]
  refine ⟨front ++ ⟨node.block, node.id, ⟨key, id, value⟩ :: node.keys⟩ :: back,
    ⟨?_, fun other place => ?_⟩, blocks.trans made, ?_, fresh⟩
  · rw [blocks, makeKeydata_next]
    exact built.layout.chain
  · have distinct := built.layout.chain.nodup
    rw [split, List.map_append, List.map_cons] at distinct
    obtain ⟨-, behind, across⟩ := List.nodup_append.mp distinct
    have elsewhere (old : other ∈ groups) (apart : other.block ≠ node.block) :
        other.Held (makeKeydata s.heap node.block key id value) := by
      have same := makeKeydata_other s.heap key id value apart
      refine (built.layout.held other old).congr
        ⟨congrArg SectionBlock.id same, congrArg SectionBlock.keys same⟩ fun k there => ?_
      refine Memory.set_other _ _ fun same => built.not_owned unused other old ?_
      exact .tail _ (.tail _ (List.mem_flatMap.mpr ⟨k, there, same ▸ List.mem_cons_self⟩))
    rcases List.mem_append.mp place with before | here
    · refine elsewhere (split ▸ List.mem_append_left _ before) fun same => ?_
      exact across _ (List.mem_map_of_mem before) _ List.mem_cons_self same
    · rcases List.mem_cons.mp here with rfl | after
      · exact (built.layout.held node inside).key (built.not_owned unused node inside) id value
      · refine elsewhere (split ▸ List.mem_append_right _ (.tail _ after)) fun same => ?_
        exact (List.nodup_cons.mp behind).1 (same ▸ List.mem_map_of_mem after)
  · have owned := built.owned
    rw [split, List.flatMap_append, List.flatMap_cons] at owned
    rw [List.flatMap_append, List.flatMap_cons]
    have inner := (owned_key_perm node ⟨key, id, value⟩).append_right
      (back.flatMap SectionNode.owned)
    rw [List.append_assoc] at inner
    have moved := (inner.append_left (front.flatMap SectionNode.owned)).trans
      (List.perm_append_comm_assoc _ _ _)
    exact moved.trans (owned.append_left [key, id, value])

theorem step_built {s' : Building} {c : Call} (built : ∃ groups, Built s groups)
    (step : Step s c s') : ∃ groups, Built s' groups := by
  obtain ⟨groups, built⟩ := built
  cases step with
  | makeKeysection fresh => exact ⟨_, makeKeysection_built built fresh⟩
  | makeKeydata member fresh => exact makeKeydata_built built member fresh

theorem init_built (init : system.init s) : Built s [] := by
  obtain ⟨made, allocated⟩ := init
  refine ⟨⟨?_, nofun⟩, made.symm, ?_, ?_⟩
  · rw [Building.root, made]
    rfl
  · rw [allocated]
    exact List.Perm.refl _
  · rw [allocated]
    exact List.nodup_nil

theorem run_built {calls : List Call} (run : Run system calls s) : ∃ groups, Built s groups :=
  run.invariant (fun _ s => ∃ groups, Built s groups) (fun _ init => ⟨[], init_built init⟩)
    fun _ _ _ _ built step => step_built built step

theorem step_made {s' : Building} {c : Call} (made : s.made ≠ []) (step : Step s c s') :
    s'.made ≠ [] := by
  cases step with
  | makeKeysection fresh => exact List.append_ne_nil_of_left_ne_nil made _
  | makeKeydata member fresh => exact made

/-- `load_keyfile` is a run of the builders, with a first section. -/
theorem loads_run {read : List Entry} (loads : Loads read s) :
    (∃ calls, Run system calls s) ∧ s.made ≠ [] := by
  induction loads with
  | root init step =>
      refine ⟨⟨_, (Run.start init).next step⟩, ?_⟩
      cases step with
      | makeKeysection fresh => exact List.append_ne_nil_of_right_ne_nil _ (List.cons_ne_nil _ _)
  | skip loads ih => exact ih
  | header loads step ih =>
      obtain ⟨⟨calls, run⟩, made⟩ := ih
      exact ⟨⟨_, run.next step⟩, step_made made step⟩
  | key loads last step ih =>
      obtain ⟨⟨calls, run⟩, made⟩ := ih
      exact ⟨⟨_, run.next step⟩, step_made made step⟩

/-- All blocks except the sections are freed, each once, and none is read afterwards. -/
theorem freeKeyfile_frees (built : Built s groups) :
    (∀ fuel, s.allocated.length < fuel →
      freeKeyfile s.heap fuel s.root = some (groups.flatMap SectionNode.trace)) ∧
    (s.made ++ frees (groups.flatMap SectionNode.trace)).Perm s.allocated ∧
    Orderly (groups.flatMap SectionNode.trace) := by
  refine ⟨fun fuel enough => ?_, ?_, ?_⟩
  · rw [← built.owned.length_eq] at enough
    exact freeKeyfile_eq built.layout enough
  · rw [← built.made]
    exact (frees_sections groups).trans built.owned
  · exact sections_orderly (built.owned.nodup_iff.mpr built.distinct)

theorem root_eq_none_iff (s : Building) : s.root = none ↔ s.made = [] :=
  List.head?_eq_none_iff

theorem released_iff (built : Built s groups) : Released s ↔ s.root = none := by
  obtain ⟨result, whole, orderly⟩ := freeKeyfile_frees built
  rw [root_eq_none_iff]
  constructor
  · rintro ⟨trace, same, released⟩
    have enough := Nat.lt_succ_self s.allocated.length
    have only := Option.some.inj ((same _ enough).symm.trans (result _ enough))
    subst only
    have length := whole.length_eq
    rw [List.length_append, released.frees.length_eq] at length
    exact List.length_eq_zero_iff.mp (by omega)
  · intro none_made
    rw [none_made, List.nil_append] at whole
    exact ⟨_, result, whole, whole.nodup_iff.mpr built.distinct, orderly⟩

end Steps

/-- A list of sections as the builders or `load_keyfile` make it. -/
inductive SectionList (s : Building) : Prop where
  | built {calls : List Call} (run : Run system calls s)
  | loaded {stack : Memory UInt8} {file : List UInt8}
      (loads : Loads (entries stack (fgetsLines file.length file)) s)

theorem SectionList.groups {s : Building} (list : SectionList s) : ∃ groups, Built s groups := by
  cases list with
  | built run => exact run_built run
  | loaded loads =>
      obtain ⟨⟨calls, run⟩, -⟩ := loads_run loads
      exact run_built run

/-- What `load_keyfile` makes is never freed without a leak. -/
theorem load_keyfile_leaks {read : List Entry} {s : Building} (loads : Loads read s) :
    ¬ Released s := by
  obtain ⟨⟨calls, run⟩, made⟩ := loads_run loads
  obtain ⟨groups, built⟩ := run_built run
  exact fun released => made ((root_eq_none_iff s).mp ((released_iff built).mp released))

/-- A list is freed without a leak exactly when it has no section. -/
theorem free_keyfile_releases_iff {s : Building} (list : SectionList s) :
    Released s ↔ s.root = none := by
  obtain ⟨groups, built⟩ := list.groups
  exact released_iff built

/-- Nothing has been made. -/
def unbuilt : Building := ⟨⟨fun _ => ⟨none, none, 0⟩, fun _ => ⟨none, 0, 0⟩⟩, [], []⟩

/-- A section in the blocks 0 and 1. -/
def oneSection : Building := ⟨makeKeysection unbuilt.heap none 0 1, [0], [0, 1]⟩

theorem oneSection_step : Step unbuilt (.makeKeysection 0 1) oneSection :=
  .makeKeysection (by decide : [0, 1].Nodup)

/-- A key of it in the blocks 2, 3 and 4. -/
def oneKey : Building := ⟨makeKeydata oneSection.heap 0 2 3 4, [0], [2, 3, 4, 0, 1]⟩

theorem oneKey_step : Step oneSection (.makeKeydata 0 2 3 4) oneKey :=
  .makeKeydata (by decide) (by decide : [2, 3, 4, 0, 1].Nodup)

theorem oneKey_run : Run system [.makeKeysection 0 1, .makeKeydata 0 2 3 4] oneKey := by
  have start : Run system [] unbuilt := .start ⟨rfl, rfl⟩
  exact (start.next oneSection_step).next oneKey_step

theorem free_keyfile_releases_iff_one : Released oneKey ↔ oneKey.root = none :=
  free_keyfile_releases_iff (.built oneKey_run)

/-- The block of the section itself is left. -/
theorem free_keyfile_leaks :
    freeKeyfile oneKey.heap 6 oneKey.root = some [.read 0, .read 0, .read 2, .read 2, .free 3,
      .read 2, .free 4, .free 2, .read 0, .free 1] ∧ ¬ Released oneKey := by
  refine ⟨by decide, fun released => ?_⟩
  obtain ⟨groups, built⟩ := run_built oneKey_run
  exact Option.some_ne_none _ ((released_iff built).mp released)

end CprFormal.Keyfile.Freeing
