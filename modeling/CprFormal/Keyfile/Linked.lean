import CprFormal.Keyfile.Freeing
import CprFormal.Keyfile.Store

/-!
# A key file in memory

The blocks of a key file hold its links, and the blocks of its texts the texts.  A key file
is found in memory when its sections follow one another from the first, the keys of each
section follow one another from its `keys` pointer, and all texts read as they should.  Only
the blocks it owns matter for that.
-/

namespace CprFormal.Keyfile.Linked

open CprFormal.Keyfile.Freeing (Heap KeyBlock KeyNode SectionBlock SectionNode)
open CprFormal.Keyfile.Model (KeydataT KeysectionT cprUpper headerLine keyLine)
open CprFormal.Library.FlatMemory CprFormal.Library.LinkedList
open CprFormal.Strchar.Compare CprFormal.Strchar.Strlen

/-- Blocks by address, with the texts in those that hold one. -/
structure Space where
  heap : Heap
  texts : Memory CString

/-- `prior->next = link` -/
def setNext (heap : Heap) (prior : Nat) (link : Option Nat) : Heap :=
  { heap with sections := heap.sections.set prior { heap.sections prior with next := link } }

/-- `make_keysection`, where `malloc` fails or gives a block for the section and one for its
name.  Only the first is tested by the code; the two are taken to succeed or to fail
together. -/
def makeKeysection (space : Space) (id : CString) (prior : Option Nat) :
    Option (Nat × Nat) → Space × Option Nat
  | none =>
      match prior with
      | some a => ({ space with heap := setNext space.heap a none }, none)
      | none => (space, none)
  | some (block, text) =>
      (⟨Freeing.makeKeysection space.heap prior block text,
        space.texts.set text (cprUpper id.char 0 32)⟩, some block)

/-- `make_keydata`, where `malloc` fails or gives blocks for the key, its name and its
value, all three or none. -/
def makeKeydata (space : Space) (group : Nat) (id value : CString) :
    Option (Nat × Nat × Nat) → Space × Option Nat
  | none => (space, none)
  | some (key, name, text) =>
      (⟨Freeing.makeKeydata space.heap group key name text,
        (space.texts.set name (Store.storedId id)).set text value⟩, some key)

/-- `find_keysection` -/
def findKeysection (space : Space) (root : Option Nat) (id : CString) (fuel : Nat) :
    Option (Option Nat) :=
  walk space.heap.nextSection (fun a => cprMatch id (space.texts (space.heap.sections a).id))
    fuel root

/-- `get_keyvalue` -/
def getKeyvalue (space : Space) (group : Nat) (id : CString) (fuel : Nat) :
    Option (Option CString) :=
  (walk space.heap.nextKey (fun a => decide (space.texts (space.heap.keys a).id = id)) fuel
    (space.heap.sections group).keys).map
      (Option.map fun a => space.texts (space.heap.keys a).value)

/-- `append_keysections` -/
def appendKeysections (space : Space) (root into : Option Nat) (fuel : Nat) :
    Option (Space × Option Nat) :=
  match into with
  | none => some (space, root)
  | some first =>
      match walk space.heap.nextSection (fun a => (space.heap.nextSection a).isNone) fuel
        (some first) with
      | none => none
      | some none => some (space, some first)
      | some (some prior) =>
          some ({ space with heap := setNext space.heap prior root }, some first)

/-- What the loops of `save_keyfile` write. -/
def saveKeyfile (space : Space) (root : Option Nat) (fuel : Nat) : Option (List UInt8) :=
  (visit space.heap.nextSection (fun a =>
    (visit space.heap.nextKey (fun k =>
        some (keyLine ⟨space.texts (space.heap.keys k).id, space.texts (space.heap.keys k).value⟩))
      fuel (space.heap.sections a).keys).map
        fun lines => headerLine (space.texts (space.heap.sections a).id) ++ lines.flatten)
    fuel root).map List.flatten

/-! ## What stands in memory -/

/-- A section, with the pointer to it. -/
structure Item where
  handle : Nat
  group : KeysectionT
  deriving DecidableEq

def dataOf (texts : Memory CString) (key : KeyNode) : KeydataT :=
  ⟨texts key.id, texts key.value⟩

def itemOf (texts : Memory CString) (node : SectionNode) : Item :=
  ⟨node.block, texts node.id, node.keys.map (dataOf texts)⟩

/-- The pointer to the first section. -/
def head (file : List Item) : Option Nat := (file.map Item.handle).head?

/-- The blocks of a key file. -/
def owns (nodes : List SectionNode) : List Nat := nodes.flatMap SectionNode.owned

/-- The key file that stands in these sections. -/
structure Holds (space : Space) (nodes : List SectionNode) (file : List Item) : Prop where
  chain : Chain space.heap.nextSection (head file) (nodes.map SectionNode.block)
  held : ∀ node ∈ nodes, node.Held space.heap
  shows : nodes.map (itemOf space.texts) = file

/-- A block reads as before, up to the link of a section. -/
structure Kept (old new : Space) (a : Nat) : Prop where
  id : (new.heap.sections a).id = (old.heap.sections a).id
  keys : (new.heap.sections a).keys = (old.heap.sections a).keys
  key : new.heap.keys a = old.heap.keys a
  text : new.texts a = old.texts a

theorem dataOf_kept {old new : Space} {key : KeyNode}
    (kept : ∀ a ∈ key.owned, Kept old new a) :
    dataOf new.texts key = dataOf old.texts key := by
  have id : key.id ∈ key.owned := .tail _ List.mem_cons_self
  have value : key.value ∈ key.owned := .tail _ (.tail _ List.mem_cons_self)
  unfold dataOf
  rw [(kept _ id).text, (kept _ value).text]

theorem owned_key {node : SectionNode} {key : KeyNode} (member : key ∈ node.keys) :
    ∀ a ∈ key.owned, a ∈ node.owned := by
  intro a owned
  exact .tail _ (.tail _ (List.mem_flatMap.mpr ⟨key, member, owned⟩))

/-- A section whose blocks read as before stands where it stood, with the same texts. -/
theorem node_kept {old new : Space} {node : SectionNode} (held : node.Held old.heap)
    (kept : ∀ a ∈ node.owned, Kept old new a) :
    node.Held new.heap ∧ itemOf new.texts node = itemOf old.texts node := by
  have block := kept node.block List.mem_cons_self
  have id := kept node.id (.tail _ List.mem_cons_self)
  refine ⟨held.congr ⟨block.id, block.keys⟩ fun key member => ?_, ?_⟩
  · exact (kept _ (owned_key member _ List.mem_cons_self)).key
  · unfold itemOf
    rw [id.text, List.map_congr_left fun key member =>
      dataOf_kept fun a owned => kept a (owned_key member a owned)]

theorem mem_owns {nodes : List SectionNode} {node : SectionNode} (member : node ∈ nodes) :
    ∀ a ∈ node.owned, a ∈ owns nodes :=
  fun _ owned => List.mem_flatMap.mpr ⟨node, member, owned⟩

theorem block_mem_owns {nodes : List SectionNode} {node : SectionNode} (member : node ∈ nodes) :
    node.block ∈ owns nodes :=
  mem_owns member _ List.mem_cons_self

theorem owns_nil : owns [] = [] := rfl

theorem owns_append (front back : List SectionNode) :
    owns (front ++ back) = owns front ++ owns back :=
  List.flatMap_append

theorem owns_cons (node : SectionNode) (back : List SectionNode) :
    owns (node :: back) = node.owned ++ owns back :=
  List.flatMap_cons

namespace Holds

variable {space old new : Space} {nodes front back more : List SectionNode}
  {node : SectionNode} {file before after : List Item} {item : Item}

theorem nil (space : Space) : Holds space [] [] :=
  ⟨rfl, fun _ member => absurd member List.not_mem_nil, rfl⟩

/-- The start of a chain is the first section of it. -/
theorem of_chain (start : Option Nat)
    (chain : Chain space.heap.nextSection start (nodes.map SectionNode.block))
    (held : ∀ node ∈ nodes, node.Held space.heap)
    (shows : nodes.map (itemOf space.texts) = file) : Holds space nodes file := by
  have first : head file = start := by
    rw [← chain.head, ← shows, head, List.map_map]
    rfl
  exact ⟨first ▸ chain, held, shows⟩

/-- A key file whose blocks read as before is as before. -/
theorem frame (holds : Holds old nodes file)
    (links : ∀ a ∈ owns nodes, new.heap.nextSection a = old.heap.nextSection a)
    (kept : ∀ a ∈ owns nodes, Kept old new a) : Holds new nodes file where
  chain := by
    refine holds.chain.congr fun a member => ?_
    obtain ⟨node, inside, rfl⟩ := List.mem_map.mp member
    exact links _ (block_mem_owns inside)
  held node member :=
    (node_kept (holds.held node member) fun a owned => kept a (mem_owns member a owned)).1
  shows := by
    rw [← holds.shows]
    exact List.map_congr_left fun node member =>
      (node_kept (holds.held node member) fun a owned => kept a (mem_owns member a owned)).2

/-- The sections of a key file stand one behind the other. -/
theorem split (holds : Holds space nodes (before ++ item :: after)) :
    ∃ front node back, nodes = front ++ node :: back ∧
      front.map (itemOf space.texts) = before ∧
      itemOf space.texts node = item ∧
      back.map (itemOf space.texts) = after := by
  obtain ⟨front, rest, rfl, first, later⟩ := List.map_eq_append_iff.mp holds.shows
  obtain ⟨node, back, rfl, here, last⟩ := List.map_eq_cons_iff.mp later
  exact ⟨front, node, back, rfl, first, here, last⟩

/-- What follows a section is a key file of its own. -/
theorem behind (holds : Holds space (front ++ node :: back) file) :
    Holds space back (back.map (itemOf space.texts)) := by
  have chain := holds.chain
  rw [List.map_append, List.map_cons] at chain
  exact of_chain _ chain.behind
    (fun other member => holds.held other (List.mem_append_right _ (.tail _ member))) rfl

/-- From every section on a key file is one. -/
theorem suffix (holds : Holds space nodes (before ++ after)) :
    ∃ front back, nodes = front ++ back ∧ Holds space back after := by
  cases before using List.reverseRecOn with
  | nil => exact ⟨[], nodes, rfl, holds⟩
  | append_singleton before item =>
      rw [List.append_assoc, List.singleton_append] at holds
      obtain ⟨front, node, back, rfl, -, -, rfl⟩ := holds.split
      exact ⟨front ++ [node], back, List.append_cons _ _ _, holds.behind⟩

/-- The link of a section is led to another key file. -/
theorem link (holds : Holds old (front ++ node :: back) file) (rest : Holds new more after)
    (kept : ∀ a ∈ owns (front ++ [node]), Kept old new a)
    (links : ∀ other ∈ front, new.heap.nextSection other.block = old.heap.nextSection other.block)
    (changed : new.heap.nextSection node.block = head after) :
    Holds new (front ++ node :: more)
      (front.map (itemOf old.texts) ++ itemOf old.texts node :: after) := by
  have same (other : SectionNode) (member : other ∈ front ++ [node]) :
      other.Held new.heap ∧
        itemOf new.texts other = itemOf old.texts other := by
    refine node_kept (holds.held other ?_) fun a owned => kept a (mem_owns member a owned)
    rw [List.append_cons]
    exact List.mem_append_left _ member
  have chain := holds.chain
  rw [List.map_append, List.map_cons] at chain
  refine of_chain (head file) ?_ ?_ ?_
  · rw [List.map_append, List.map_cons]
    refine chain.redirect (fun b member => ?_) changed rest.chain
    obtain ⟨other, inside, rfl⟩ := List.mem_map.mp member
    exact links other inside
  · intro other member
    rw [List.append_cons] at member
    rcases List.mem_append.mp member with near | far
    · exact (same other near).1
    · exact rest.held other far
  · rw [List.map_append, List.map_cons, rest.shows,
      List.map_congr_left fun other member => (same other (List.mem_append_left _ member)).2,
      (same node (List.mem_append_right _ List.mem_cons_self)).2]

/-- A section gets another text or other keys where it stands. -/
theorem replace (new : Space) (holds : Holds old (front ++ node :: back) file)
    (node' : SectionNode) (block : node'.block = node.block) (held : node'.Held new.heap)
    (links : new.heap.nextSection = old.heap.nextSection)
    (kept : ∀ a ∈ owns (front ++ back), Kept old new a) :
    Holds new (front ++ node' :: back)
      (front.map (itemOf old.texts) ++ itemOf new.texts node' :: back.map (itemOf old.texts)) := by
  have same (other : SectionNode) (member : other ∈ front ++ back) :
      other.Held new.heap ∧ itemOf new.texts other = itemOf old.texts other := by
    refine node_kept (holds.held other ?_) fun a owned => kept a (mem_owns member a owned)
    rcases List.mem_append.mp member with near | far
    · exact List.mem_append_left _ near
    · exact List.mem_append_right _ (.tail _ far)
  refine of_chain (head file) ?_ ?_ ?_
  · have chain := holds.chain
    rw [List.map_append, List.map_cons] at chain ⊢
    rw [links, block]
    exact chain
  · intro other member
    rcases List.mem_append.mp member with near | here
    · exact (same other (List.mem_append_left _ near)).1
    · rcases List.mem_cons.mp here with rfl | far
      · exact held
      · exact (same other (List.mem_append_right _ far)).1
  · rw [List.map_append, List.map_cons,
      List.map_congr_left fun other member => (same other (List.mem_append_left _ member)).2,
      List.map_congr_left fun other member => (same other (List.mem_append_right _ member)).2]

end Holds

/-! ## What the functions change -/

section Changes

variable (space : Space) (prior : Nat) (link : Option Nat)

theorem setNext_at : (setNext space.heap prior link).sections prior =
    { space.heap.sections prior with next := link } :=
  Memory.set_same _ _ _

theorem setNext_kept (a : Nat) :
    Kept space { space with heap := setNext space.heap prior link } a := by
  by_cases same : a = prior
  · subst same
    have here := setNext_at space a link
    exact ⟨(congrArg SectionBlock.id here :), (congrArg SectionBlock.keys here :), rfl, rfl⟩
  · have here : (setNext space.heap prior link).sections a = space.heap.sections a :=
      Memory.set_other _ _ same
    exact ⟨congrArg SectionBlock.id here, congrArg SectionBlock.keys here, rfl, rfl⟩

theorem setNext_same : (setNext space.heap prior link).nextSection prior = link :=
  congrArg SectionBlock.next (setNext_at space prior link)

theorem setNext_other {a : Nat} (other : a ≠ prior) :
    (setNext space.heap prior link).nextSection a = space.heap.nextSection a :=
  congrArg SectionBlock.next (Memory.set_other _ _ other)

end Changes

section Making

variable {space : Space} {id : CString} {prior : Option Nat} {block text a : Nat}

/-- Only the new blocks read otherwise. -/
theorem makeKeysection_kept (apart : a ∉ [block, text]) :
    Kept space (makeKeysection space id prior (some (block, text))).1 a := by
  simp only [List.mem_cons, List.not_mem_nil, or_false, not_or] at apart
  obtain ⟨other, apart⟩ := apart
  have changed := Freeing.makeKeysection_other space.heap prior text other
  have texts : (space.texts.set text (cprUpper id.char 0 32)) a = space.texts a :=
    Memory.set_other _ _ apart
  refine ⟨?_, ?_, rfl, texts⟩
  · change ((Freeing.makeKeysection space.heap prior block text).sections a).id = _
    rw [changed]
    split
    · rfl
    · rfl
  · change ((Freeing.makeKeysection space.heap prior block text).sections a).keys = _
    rw [changed]
    split
    · rfl
    · rfl

theorem makeKeysection_next (other : a ≠ block) :
    (makeKeysection space id prior (some (block, text))).1.heap.nextSection a =
      if prior = some a then some block else space.heap.nextSection a := by
  change ((Freeing.makeKeysection space.heap prior block text).sections a).next = _
  rw [Freeing.makeKeysection_other space.heap prior text other]
  split
  · rfl
  · rfl

/-- The new section alone. -/
theorem makeKeysection_new :
    Holds (makeKeysection space id prior (some (block, text))).1 [⟨block, text, []⟩]
      [⟨block, cprUpper id.char 0 32, []⟩] := by
  have here := Freeing.makeKeysection_same space.heap prior block text
  have name : (space.texts.set text (cprUpper id.char 0 32)) text = cprUpper id.char 0 32 :=
    Memory.set_same _ _ _
  refine ⟨⟨rfl, congrArg SectionBlock.next here⟩, fun node member => ?_, ?_⟩
  · rw [List.mem_singleton.mp member]
    exact ⟨congrArg SectionBlock.id here, congrArg SectionBlock.keys here,
      fun _ member => absurd member List.not_mem_nil⟩
  · exact congrArg (fun id => [(⟨block, id, []⟩ : Item)]) name

section Keying

variable {group key name text : Nat} {value : CString}

theorem makeKeydata_text (apart : a ∉ [key, name, text]) :
    (makeKeydata space group id value (some (key, name, text))).1.texts a = space.texts a := by
  simp only [List.mem_cons, List.not_mem_nil, or_false, not_or] at apart
  exact (Memory.set_other _ _ apart.2.2).trans (Memory.set_other _ _ apart.2.1)

theorem makeKeydata_kept (notGroup : a ≠ group) (apart : a ∉ [key, name, text]) :
    Kept space (makeKeydata space group id value (some (key, name, text))).1 a := by
  have same := Freeing.makeKeydata_other space.heap key name text notGroup
  have other : a ≠ key := fun here => apart (here ▸ List.mem_cons_self)
  exact ⟨congrArg SectionBlock.id same, congrArg SectionBlock.keys same,
    Memory.set_other _ _ other, makeKeydata_text apart⟩

/-- The section has the new key before its others. -/
theorem makeKeydata_item (space : Space) (group : Nat) (id value : CString) {node : SectionNode}
    (apart : name ≠ text)
    (texts : ∀ b ∈ node.id :: node.keys.flatMap KeyNode.owned, b ∉ [key, name, text]) :
    itemOf (makeKeydata space group id value (some (key, name, text))).1.texts
        ⟨node.block, node.id, ⟨key, name, text⟩ :: node.keys⟩ =
      ⟨node.block, Store.makeKeydata (itemOf space.texts node).group id value⟩ := by
  have first : (makeKeydata space group id value (some (key, name, text))).1.texts name =
      Store.storedId id := (Memory.set_other _ _ apart).trans (Memory.set_same _ _ _)
  have second : (makeKeydata space group id value (some (key, name, text))).1.texts text =
      value := Memory.set_same _ _ _
  have others : node.keys.map
      (dataOf (makeKeydata space group id value (some (key, name, text))).1.texts) =
        node.keys.map (dataOf space.texts) := by
    refine List.map_congr_left fun k member => ?_
    have owned (b : Nat) (own : b ∈ k.owned) : b ∉ [key, name, text] :=
      texts b (.tail _ (List.mem_flatMap.mpr ⟨k, member, own⟩))
    unfold dataOf
    rw [makeKeydata_text (owned k.id (.tail _ List.mem_cons_self)),
      makeKeydata_text (owned k.value (.tail _ (.tail _ List.mem_cons_self)))]
  unfold itemOf
  rw [makeKeydata_text (texts node.id List.mem_cons_self), List.map_cons, others]
  unfold dataOf
  rw [first, second]
  rfl

end Keying

end Making

/-! ## What the functions find -/

section Reading

variable {space : Space} {nodes : List SectionNode} {file : List Item} {fuel : Nat}

theorem length_le_owns (nodes : List SectionNode) : nodes.length ≤ (owns nodes).length := by
  induction nodes with
  | nil => exact Nat.le_refl _
  | cons node nodes ih =>
      rw [owns_cons, List.length_append, List.length_cons, Nat.add_comm]
      exact Nat.add_le_add (Nat.le_add_left 1 _) ih

theorem keys_le_owns {node : SectionNode} (member : node ∈ nodes) :
    node.keys.length ≤ (owns nodes).length := by
  have keys : node.keys.length ≤ node.owned.length :=
    (Freeing.length_le_owned node.keys).trans (Nat.le_add_right _ 2)
  obtain ⟨front, back, rfl⟩ := List.append_of_mem member
  rw [owns_append, owns_cons, List.length_append, List.length_append]
  omega

/-- `find_keysection` finds the first section whose name matches. -/
theorem Holds.find (holds : Holds space nodes file) (id : CString)
    (enough : (owns nodes).length < fuel) :
    findKeysection space (head file) id fuel =
      some ((file.find? fun item => cprMatch id item.group.id).map Item.handle) := by
  have short : nodes.length < fuel := (length_le_owns nodes).trans_lt enough
  unfold findKeysection
  rw [holds.chain.walk_map (q := fun node => cprMatch id (itemOf space.texts node).group.id)
    (fun node member => ?_) short, ← holds.shows, List.find?_map, Option.map_map]
  · rfl
  · rw [(holds.held node member).id]
    rfl

/-- `get_keyvalue` finds what the section says. -/
theorem Holds.get (holds : Holds space nodes file) {item : Item} (member : item ∈ file)
    (id : CString) (enough : (owns nodes).length < fuel) :
    getKeyvalue space item.handle id fuel = some (Model.getKeyvalue item.group id) := by
  rw [← holds.shows] at member
  obtain ⟨node, inside, rfl⟩ := List.mem_map.mp member
  have held := holds.held node inside
  have short : node.keys.length < fuel := (keys_le_owns inside).trans_lt enough
  unfold getKeyvalue Model.getKeyvalue itemOf
  rw [held.chain.walk_map (q := fun key => decide (space.texts key.id = id))
    (fun key there => ?_) short, Option.map_some, List.find?_map, Option.map_map, Option.map_map]
  · refine congrArg some (Option.map_congr fun key found => ?_)
    exact congrArg space.texts (held.keys key (List.mem_of_find?_eq_some found)).2
  · rw [(held.keys key there).1]

/-- `save_keyfile` writes the key file. -/
theorem Holds.save (holds : Holds space nodes file) (enough : (owns nodes).length < fuel) :
    saveKeyfile space (head file) fuel = some (Model.saveKeyfile (file.map Item.group)) := by
  have short : nodes.length < fuel := (length_le_owns nodes).trans_lt enough
  unfold saveKeyfile
  rw [holds.chain.visit_map (q := fun node => headerLine (space.texts node.id) ++
    (node.keys.map fun key => keyLine (dataOf space.texts key)).flatten) (fun node member => ?_)
    short]
  · rw [← holds.shows, Option.map_some, Model.saveKeyfile, Model.savedLines, List.map_map,
      List.flatMap_map, List.flatMap, List.flatten_flatten, List.map_map]
    refine congrArg (fun lines => some (List.flatten lines)) (List.map_congr_left fun node _ => ?_)
    change _ = (headerLine (space.texts node.id) :: (node.keys.map (dataOf space.texts)).map
      keyLine).flatten
    rw [List.flatten_cons, List.map_map]
    rfl
  · have held := holds.held node member
    have few : node.keys.length < fuel := (keys_le_owns member).trans_lt enough
    rw [held.chain.visit_map (q := fun key => keyLine (dataOf space.texts key))
      (fun key there => ?_) few, held.id]
    · rfl
    · rw [(held.keys key there).1, (held.keys key there).2]
      rfl

/-- `append_keysections` walks to the last section. -/
theorem Holds.append {front : List SectionNode} {last : SectionNode}
    (holds : Holds space (front ++ [last]) file) (root : Option Nat)
    (enough : (owns (front ++ [last])).length < fuel) :
    appendKeysections space root (head file) fuel =
      some ({ space with heap := setNext space.heap last.block root }, head file) := by
  have short : ((front ++ [last]).map SectionNode.block).length < fuel := by
    rw [List.length_map]
    exact (length_le_owns _).trans_lt enough
  have chain := holds.chain
  have walked := chain.walk_eq (fun a => (space.heap.nextSection a).isNone) short
  rw [List.map_append] at chain walked
  rw [List.map_singleton] at chain walked
  rw [chain.find_last] at walked
  unfold appendKeysections
  cases start : head file with
  | none =>
      rw [start] at chain
      cases front with
      | nil => exact absurd chain.1 nofun
      | cons first front => exact absurd chain.1 nofun
  | some first =>
      rw [start] at walked
      simp only [walked]

end Reading

end CprFormal.Keyfile.Linked
