import Mathlib.Data.List.Perm.Basic
import CprFormal.Keyfile.Linked

/-!
# Programs that use key files

A program makes key files, puts sections and keys into them, joins and frees them, in any
order.  What it means by them is a shelf: each key file as a list of sections with their
keys, and with the pointers the program was given.  However `malloc` places and reuses the
blocks, every key file of the shelf stands in memory, in blocks of its own.
-/

namespace CprFormal.Keyfile.Shelf

open CprFormal.Keyfile.Freeing (KeyNode SectionNode)
open CprFormal.Keyfile.Model (KeysectionT cprUpper)
open CprFormal.Keyfile.Linked
open CprFormal.Library.FlatMemory CprFormal.Library.Freeing CprFormal.Library.Transition
open CprFormal.Strchar.Compare CprFormal.Strchar.Strlen

/-! ## Sessions -/

/-- Memory, the blocks in use and what the program means by them. -/
structure Session where
  space : Space
  live : List Nat
  shelf : List (List Item)

/-- A call, with the blocks `malloc` gives, or `none` where the call gets none. -/
inductive Call where
  | null
  | makeKeysection (id : CString) (prior : Option Nat) (blocks : Option (Nat × Nat))
  | makeKeydata (group : Nat) (id value : CString) (blocks : Option (Nat × Nat × Nat))
  | appendKeysections (root into : Option Nat)
  | freeKeyfile (root : Option Nat)

/-- What `malloc` gives is not in use. -/
def Unused (live blocks : List Nat) : Prop := blocks.Nodup ∧ ∀ a ∈ blocks, a ∉ live

theorem unused_nil (live : List Nat) : Unused live [] :=
  ⟨List.nodup_nil, fun _ member => absurd member List.not_mem_nil⟩

/-- Enough passes for every loop. -/
def Session.fuel (s : Session) : Nat := s.live.length + 1

/-- The section `make_keysection` makes. -/
def newItem (block : Nat) (id : CString) : Item := ⟨block, cprUpper id.char 0 32, []⟩

/-- The calls on key files that are on the shelf.  What followed the section that
`make_keysection` was given is cut off as a key file of its own; what `free_keyfile` has
freed may be given again. -/
inductive Step : Session → Call → Session → Prop where
  | null {s : Session} : Step s .null { s with shelf := [] :: s.shelf }
  | first {s : Session} {id : CString} {block text : Nat} (unused : Unused s.live [block, text]) :
      Step s (.makeKeysection id none (some (block, text)))
        ⟨(makeKeysection s.space id none (some (block, text))).1, [block, text] ++ s.live,
          [newItem block id] :: s.shelf⟩
  | unmade {s : Session} {id : CString} :
      Step s (.makeKeysection id none none)
        { s with space := (makeKeysection s.space id none none).1 }
  | behind {s : Session} {before after : List Item} {prior : Item} {others : List (List Item)}
      {id : CString} {block text : Nat}
      (shelf : s.shelf.Perm ((before ++ prior :: after) :: others))
      (unused : Unused s.live [block, text]) :
      Step s (.makeKeysection id (some prior.handle) (some (block, text)))
        ⟨(makeKeysection s.space id (some prior.handle) (some (block, text))).1,
          [block, text] ++ s.live, (before ++ [prior, newItem block id]) :: after :: others⟩
  | cut {s : Session} {before after : List Item} {prior : Item} {others : List (List Item)}
      {id : CString} (shelf : s.shelf.Perm ((before ++ prior :: after) :: others)) :
      Step s (.makeKeysection id (some prior.handle) none)
        ⟨(makeKeysection s.space id (some prior.handle) none).1, s.live,
          (before ++ [prior]) :: after :: others⟩
  | key {s : Session} {before after : List Item} {item : Item} {others : List (List Item)}
      {id value : CString} {key name text : Nat}
      (shelf : s.shelf.Perm ((before ++ item :: after) :: others))
      (unused : Unused s.live [key, name, text]) :
      Step s (.makeKeydata item.handle id value (some (key, name, text)))
        ⟨(makeKeydata s.space item.handle id value (some (key, name, text))).1,
          [key, name, text] ++ s.live,
          (before ++ { item with group := Store.makeKeydata item.group id value } :: after) ::
            others⟩
  | keyless {s : Session} {group : Nat} {id value : CString} :
      Step s (.makeKeydata group id value none)
        { s with space := (makeKeydata s.space group id value none).1 }
  | append {s : Session} {root into : List Item} {others : List (List Item)} {space : Space}
      {start : Option Nat} (shelf : s.shelf.Perm (into :: root :: others))
      (appended : appendKeysections s.space (head root) (head into) s.fuel = some (space, start)) :
      Step s (.appendKeysections (head root) (head into))
        ⟨space, s.live, (into ++ root) :: others⟩
  | free {s : Session} {root : List Item} {others : List (List Item)} {trace : List (Access Nat)}
      (shelf : s.shelf.Perm (root :: others))
      (freed : Freeing.freeKeyfile s.space.heap s.fuel (head root) = some trace) :
      Step s (.freeKeyfile (head root))
        ⟨s.space, s.live.filter fun a => decide (a ∉ frees trace), others⟩

/-- A program begins without key files. -/
def system : System Session Call where
  init s := s.shelf = []
  step := Step

/-- Every call on a key file of the shelf ends and gives what the list of its sections
says. -/
structure Serves (s : Session) (file : List Item) : Prop where
  find : ∀ before after, file = before ++ after → ∀ id fuel, s.live.length < fuel →
    findKeysection s.space (head after) id fuel =
      some ((after.find? fun item => cprMatch id item.group.id).map Item.handle)
  get : ∀ item ∈ file, ∀ id fuel, s.live.length < fuel →
    getKeyvalue s.space item.handle id fuel = some (Model.getKeyvalue item.group id)
  save : ∀ fuel, s.live.length < fuel →
    saveKeyfile s.space (head file) fuel = some (Model.saveKeyfile (file.map Item.group))
  append : ∀ root fuel, s.live.length < fuel →
    ∃ space, appendKeysections s.space root (head file) fuel = some (space, (head file).or root)
  free : ∃ trace, (∀ fuel, s.live.length < fuel →
      Freeing.freeKeyfile s.space.heap fuel (head file) = some trace) ∧
    (frees trace).Nodup ∧ (∀ a ∈ frees trace, a ∈ s.live) ∧ Orderly trace

/-- The key files of a shelf stand in memory, in blocks that are in use and apart. -/
structure Placed (space : Space) (live : List Nat) (shelf : List (List Item))
    (places : List (List SectionNode)) : Prop where
  files : List.Forall₂ (Holds space) places shelf
  distinct : (places.flatMap owns).Nodup
  live : ∀ a ∈ places.flatMap owns, a ∈ live

section Keeping

variable {space new : Space} {live : List Nat} {shelf : List (List Item)}
  {places : List (List SectionNode)}

/-- The order of the key files means nothing. -/
theorem Placed.perm (placed : Placed space live shelf places) {shelf' : List (List Item)}
    (same : shelf.Perm shelf') : ∃ places', Placed space live shelf' places' := by
  have moving : Relation.Comp (List.Forall₂ (Holds space)) List.Perm places shelf' :=
    ⟨shelf, placed.files, same⟩
  rw [List.forall₂_comp_perm_eq_perm_comp_forall₂] at moving
  obtain ⟨places', moved, files⟩ := moving
  have owned := moved.flatMap_right owns
  exact ⟨places', files, owned.nodup_iff.mp placed.distinct,
    fun a member => placed.live a (owned.mem_iff.mpr member)⟩

/-- There are no more blocks of a key file than blocks in use. -/
theorem Placed.enough (placed : Placed space live shelf places) {nodes : List SectionNode}
    (member : nodes ∈ places) {fuel : Nat} (enough : live.length < fuel) :
    (owns nodes).length < fuel := by
  have whole := (List.subperm_of_subset placed.distinct placed.live).length_le
  obtain ⟨front, back, rfl⟩ := List.append_of_mem member
  rw [List.flatMap_append, List.flatMap_cons, List.length_append, List.length_append] at whole
  omega

/-- The blocks of the new key files are those of the old ones and new ones that were not in
use. -/
theorem Placed.next (placed : Placed space live shelf places) {shelf' : List (List Item)}
    {places' : List (List SectionNode)} {blocks : List Nat}
    (unused : Unused live blocks) (files : List.Forall₂ (Holds new) places' shelf')
    (owned : (places'.flatMap owns).Perm (blocks ++ places.flatMap owns)) :
    Placed new (blocks ++ live) shelf' places' := by
  refine ⟨files, owned.nodup_iff.mpr ?_, fun a member => ?_⟩
  · refine List.nodup_append.mpr ⟨unused.1, placed.distinct, fun a new b old same => ?_⟩
    exact unused.2 a new (same ▸ placed.live b old)
  · rcases List.mem_append.mp (owned.mem_iff.mp member) with new | old
    · exact List.mem_append_left _ new
    · exact List.mem_append_right _ (placed.live a old)

/-- Key files whose blocks read as before are as before. -/
theorem files_frame (files : List.Forall₂ (Holds space) places shelf)
    (links : ∀ a ∈ places.flatMap owns, new.heap.nextSection a = space.heap.nextSection a)
    (kept : ∀ a ∈ places.flatMap owns, Kept space new a) :
    List.Forall₂ (Holds new) places shelf := by
  induction files with
  | nil => exact .nil
  | cons holds files ih =>
      rw [List.flatMap_cons] at links kept
      refine .cons (holds.frame (fun a own => links a ?_) fun a own => kept a ?_)
        (ih (fun a own => links a ?_) fun a own => kept a ?_)
      · exact List.mem_append_left _ own
      · exact List.mem_append_left _ own
      · exact List.mem_append_right _ own
      · exact List.mem_append_right _ own

/-! ## Every call keeps the shelf -/

/-- A new section, with nothing before it or behind a section of the first key file. -/
theorem first_placed {id : CString} {block text : Nat}
    (placed : Placed space live shelf places) (unused : Unused live [block, text]) :
    Placed (makeKeysection space id none (some (block, text))).1 ([block, text] ++ live)
      ([newItem block id] :: shelf) ([⟨block, text, []⟩] :: places) := by
  have old (a : Nat) (own : a ∈ places.flatMap owns) : a ∉ [block, text] := fun fresh =>
    unused.2 a fresh (placed.live a own)
  refine placed.next unused (.cons makeKeysection_new (files_frame placed.files
    (fun a own => ?_) fun a own => makeKeysection_kept (old a own))) (List.Perm.refl _)
  have other : a ≠ block := fun same => old a own (same ▸ List.mem_cons_self)
  rw [makeKeysection_next other, if_neg (Option.some_ne_none a).symm]

/-- The block of a section belongs to no other one. -/
theorem block_apart {front back : List SectionNode} {node : SectionNode}
    {rest : List (List SectionNode)}
    (distinct : (((front ++ node :: back) :: rest).flatMap owns).Nodup) :
    node.block ∉ owns front ∧ node.block ∉ owns back ++ rest.flatMap owns := by
  rw [List.flatMap_cons, owns_append, owns_cons, List.append_assoc, List.append_assoc] at distinct
  obtain ⟨-, later, across⟩ := List.nodup_append.mp distinct
  have here : node.block ∈ node.owned := List.mem_cons_self
  refine ⟨fun inside => ?_, fun inside => ?_⟩
  · exact across _ inside _ (List.mem_append_left _ here) rfl
  · exact (List.nodup_append.mp later).2.2 _ here _ inside rfl

/-- A section of the first key file gets another link: what was behind it is a key file of
its own, and the other ones are as before. -/
theorem files_link {front back more : List SectionNode} {node : SectionNode}
    {file after : List Item} {rest : List (List SectionNode)} {others : List (List Item)}
    (holds : Holds space (front ++ node :: back) file)
    (files : List.Forall₂ (Holds space) rest others)
    (distinct : (((front ++ node :: back) :: rest).flatMap owns).Nodup)
    (behind : Holds new more after)
    (links : ∀ a ∈ ((front ++ node :: back) :: rest).flatMap owns, a ≠ node.block →
      new.heap.nextSection a = space.heap.nextSection a)
    (kept : ∀ a ∈ ((front ++ node :: back) :: rest).flatMap owns, Kept space new a)
    (changed : new.heap.nextSection node.block = head after) :
    List.Forall₂ (Holds new) ((front ++ node :: more) :: back :: rest)
      ((front.map (itemOf space.texts) ++ itemOf space.texts node :: after) ::
        back.map (itemOf space.texts) :: others) := by
  obtain ⟨notFront, notBack⟩ := block_apart distinct
  rw [List.flatMap_cons, owns_append, owns_cons, List.append_assoc, List.append_assoc]
    at links kept
  have later (a : Nat) (own : a ∈ owns back ++ rest.flatMap owns) :
      a ∈ owns front ++ (node.owned ++ (owns back ++ rest.flatMap owns)) :=
    List.mem_append_right _ (List.mem_append_right _ own)
  have apart (a : Nat) (own : a ∈ owns back ++ rest.flatMap owns) : a ≠ node.block :=
    fun same => notBack (same ▸ own)
  refine .cons ?_ (.cons ?_ ?_)
  · refine holds.link behind (fun a own => kept a ?_) (fun other member => ?_) changed
    · rw [owns_append] at own
      rcases List.mem_append.mp own with near | here
      · exact List.mem_append_left _ near
      · rw [owns_cons] at here
        refine List.mem_append_right _ (List.mem_append_left _ ?_)
        exact (List.mem_append.mp here).resolve_right List.not_mem_nil
    · have own := block_mem_owns member
      exact links _ (List.mem_append_left _ own) fun same => notFront (same ▸ own)
  · have own (a : Nat) (inside : a ∈ owns back) := List.mem_append_left (rest.flatMap owns) inside
    exact holds.behind.frame
      (fun a inside => links a (later a (own a inside)) (apart a (own a inside)))
      fun a inside => kept a (later a (own a inside))
  · have own (a : Nat) (inside : a ∈ rest.flatMap owns) := List.mem_append_right (owns back) inside
    exact files_frame files
      (fun a inside => links a (later a (own a inside)) (apart a (own a inside)))
      fun a inside => kept a (later a (own a inside))

theorem behind_placed {before after : List Item} {prior : Item} {others : List (List Item)}
    {id : CString} {block text : Nat}
    (placed : Placed space live ((before ++ prior :: after) :: others) places)
    (unused : Unused live [block, text]) :
    ∃ places', Placed (makeKeysection space id (some prior.handle) (some (block, text))).1
      ([block, text] ++ live) ((before ++ [prior, newItem block id]) :: after :: others)
      places' := by
  have files := placed.files
  cases files with
  | @cons nodes _ rest _ holds files =>
      obtain ⟨front, node, back, rfl, rfl, rfl, rfl⟩ := holds.split
      have old (a : Nat) (own : a ∈ ((front ++ node :: back) :: rest).flatMap owns) :
          a ∉ [block, text] := fun fresh => unused.2 a fresh (placed.live a own)
      have other (a : Nat) (own : a ∈ ((front ++ node :: back) :: rest).flatMap owns) :
          a ≠ block := fun same => old a own (same ▸ List.mem_cons_self)
      have here : node.block ∈ ((front ++ node :: back) :: rest).flatMap owns := by
        rw [List.flatMap_cons]
        exact List.mem_append_left _ (block_mem_owns (List.mem_append_right _ List.mem_cons_self))
      refine ⟨(front ++ [node, ⟨block, text, []⟩]) :: back :: rest, placed.next unused
        (files_link holds files placed.distinct makeKeysection_new (fun a own apart => ?_)
          (fun a own => makeKeysection_kept (old a own)) ?_) ?_⟩
      · rw [makeKeysection_next (other a own)]
        exact if_neg fun same => apart (Option.some.inj same).symm
      · rw [makeKeysection_next (other _ here)]
        exact if_pos rfl
      · refine List.perm_iff_count.mpr fun a => ?_
        have new : owns [⟨block, text, []⟩] = [block, text] := rfl
        simp only [List.flatMap_cons, owns_append, owns_cons, List.count_append, new]
        omega

/-- `malloc` has failed, and what was behind the section is cut off all the same. -/
theorem cut_placed {before after : List Item} {prior : Item} {others : List (List Item)}
    (placed : Placed space live ((before ++ prior :: after) :: others) places) :
    ∃ places', Placed { space with heap := setNext space.heap prior.handle none } live
      ((before ++ [prior]) :: after :: others) places' := by
  have files := placed.files
  cases files with
  | @cons nodes _ rest _ holds files =>
      obtain ⟨front, node, back, rfl, rfl, rfl, rfl⟩ := holds.split
      refine ⟨(front ++ [node]) :: back :: rest, placed.next (unused_nil live)
        (files_link holds files placed.distinct (Holds.nil _)
          (fun a _ apart => setNext_other space _ none apart)
          (fun a _ => setNext_kept space _ none a) (setNext_same space _ none)) ?_⟩
      refine List.perm_iff_count.mpr fun a => ?_
      simp only [List.flatMap_cons, owns_append, owns_cons, List.count_append, owns_nil,
        List.count_nil]
      omega

/-- The other key file is put behind the last section of the first one. -/
theorem append_placed {root into : List Item} {others : List (List Item)} {fuel : Nat}
    (placed : Placed space live (into :: root :: others) places) (enough : live.length < fuel) :
    ∃ space' places', appendKeysections space (head root) (head into) fuel =
      some (space', (head into).or (head root)) ∧
      Placed space' live ((into ++ root) :: others) places' := by
  have files := placed.files
  cases files with
  | @cons nodes _ rest _ holds files =>
      cases files with
      | @cons more _ rest _ behind files =>
          cases nodes using List.reverseRecOn with
          | nil =>
              have none : into = [] := holds.shows.symm
              subst none
              exact ⟨space, more :: rest, rfl, .cons behind files, placed.distinct, placed.live⟩
          | append_singleton front last =>
              have shows := holds.shows
              rw [List.map_append, List.map_singleton] at shows
              subst shows
              have distinct := placed.distinct
              obtain ⟨-, notBehind⟩ := block_apart distinct
              obtain ⟨first, start⟩ : ∃ first, head (front.map (itemOf space.texts) ++
                  [itemOf space.texts last]) = some first :=
                Option.isSome_iff_exists.mp (by simp [head])
              refine ⟨{ space with heap := setNext space.heap last.block (head root) },
                (front ++ last :: more) :: rest, ?_, placed.next (unused_nil live) ?_ ?_⟩
              · rw [holds.append (head root) (placed.enough List.mem_cons_self enough), start]
                rfl
              · have behind' : Holds { space with
                    heap := setNext space.heap last.block (head root) } more root := by
                  refine behind.frame (fun a own => setNext_other space _ _ fun same => ?_)
                    fun a _ => setNext_kept space _ _ a
                  exact notBehind (same ▸ List.mem_append_left (rest.flatMap owns) own)
                have linked := files_link holds (.cons behind files) distinct behind'
                  (fun a _ apart => setNext_other space _ (head root) apart)
                  (fun a _ => setNext_kept space _ (head root) a)
                  (setNext_same space _ (head root))
                rw [List.append_assoc]
                cases linked with
                | cons whole later =>
                    cases later with
                    | cons _ later =>
                        cases later with
                        | cons _ later => exact .cons whole later
              · refine List.perm_iff_count.mpr fun a => ?_
                simp only [List.flatMap_cons, owns_append, owns_cons, List.count_append, owns_nil,
                  List.count_nil]
                omega

theorem key_placed {before after : List Item} {item : Item} {others : List (List Item)}
    {id value : CString} {key name text : Nat}
    (placed : Placed space live ((before ++ item :: after) :: others) places)
    (unused : Unused live [key, name, text]) :
    ∃ places', Placed (makeKeydata space item.handle id value (some (key, name, text))).1
      ([key, name, text] ++ live)
      ((before ++ { item with group := Store.makeKeydata item.group id value } :: after) :: others)
      places' := by
  have files := placed.files
  cases files with
  | @cons nodes _ rest _ holds files =>
      obtain ⟨front, node, back, rfl, rfl, rfl, rfl⟩ := holds.split
      have distinct := placed.distinct
      obtain ⟨notFront, notBehind⟩ := block_apart distinct
      have member : node ∈ front ++ node :: back := List.mem_append_right _ List.mem_cons_self
      have old (a : Nat) (own : a ∈ ((front ++ node :: back) :: rest).flatMap owns) :
          a ∉ [key, name, text] := fun fresh => unused.2 a fresh (placed.live a own)
      have links := Freeing.makeKeydata_next space.heap node.block key name text
      have kept (a : Nat) (apart : a ≠ node.block)
          (own : a ∈ ((front ++ node :: back) :: rest).flatMap owns) :
          Kept space (makeKeydata space node.block id value (some (key, name, text))).1 a :=
        makeKeydata_kept apart (old a own)
      have owned (a : Nat) (own : a ∈ node.owned) :
          a ∈ ((front ++ node :: back) :: rest).flatMap owns :=
        List.mem_append_left _ (mem_owns member a own)
      have unowned : key ∉ node.owned := fun own => old key (owned key own) List.mem_cons_self
      have apart : name ≠ text := fun same =>
        (List.nodup_cons.mp (List.nodup_cons.mp unused.1).2).1 (same ▸ List.mem_cons_self)
      refine ⟨(front ++ ⟨node.block, node.id, ⟨key, name, text⟩ :: node.keys⟩ :: back) :: rest,
        placed.next unused (.cons ?_ ?_) ?_⟩
      · have item := makeKeydata_item space node.block id value apart
          fun b inside => old b (owned b (.tail _ inside))
        have replaced := holds.replace
          (makeKeydata space node.block id value (some (key, name, text))).1
          ⟨node.block, node.id, ⟨key, name, text⟩ :: node.keys⟩ rfl
          ((holds.held node member).key unowned name text) links fun a own => kept a ?_ ?_
        · rw [item] at replaced
          exact replaced
        · rw [owns_append] at own
          exact fun same => (List.mem_append.mp own).elim (fun near => notFront (same ▸ near))
            fun far => notBehind (same ▸ List.mem_append_left (rest.flatMap owns) far)
        · rw [owns_append] at own
          refine List.mem_append_left _ ?_
          rw [owns_append, owns_cons]
          exact (List.mem_append.mp own).elim (List.mem_append_left _)
            fun far => List.mem_append_right _ (List.mem_append_right _ far)
      · refine files_frame files (fun a own => congrFun links a) fun a own => kept a ?_ ?_
        · exact fun same => notBehind (same ▸ List.mem_append_right (owns back) own)
        · exact List.mem_append_right _ own
      · refine List.perm_iff_count.mpr fun a => ?_
        have keyed := (Freeing.owned_key_perm node ⟨key, name, text⟩).count_eq a
        have new : KeyNode.owned ⟨key, name, text⟩ = [key, name, text] := rfl
        rw [List.count_append, new] at keyed
        simp only [List.flatMap_cons, owns_append, owns_cons, List.count_append, keyed]
        omega

/-- What `free_keyfile` does to a key file. -/
theorem freed {nodes : List SectionNode} {file : List Item}
    (placed : Placed space live shelf places) (member : nodes ∈ places)
    (holds : Holds space nodes file) :
    (∀ fuel, live.length < fuel → Freeing.freeKeyfile space.heap fuel (head file) =
      some (nodes.flatMap SectionNode.trace)) ∧
    (∀ a ∈ frees (nodes.flatMap SectionNode.trace), a ∈ owns nodes) ∧
    (frees (nodes.flatMap SectionNode.trace)).Nodup ∧
    Orderly (nodes.flatMap SectionNode.trace) := by
  have whole := Freeing.frees_sections nodes
  have distinct : (owns nodes).Nodup := by
    obtain ⟨front, back, rfl⟩ := List.append_of_mem member
    have all := placed.distinct
    rw [List.flatMap_append, List.flatMap_cons] at all
    exact (List.nodup_append.mp (List.nodup_append.mp all).2.1).1
  refine ⟨fun fuel enough => ?_, fun a freed => ?_, ?_, Freeing.sections_orderly distinct⟩
  · exact Freeing.freeKeyfile_eq ⟨holds.chain, holds.held⟩ (placed.enough member enough)
  · exact whole.mem_iff.mp (List.mem_append_right _ freed)
  · exact (List.nodup_append.mp (whole.nodup_iff.mpr distinct)).2.1

theorem free_placed {root : List Item} {others : List (List Item)} {fuel : Nat}
    {trace : List (Access Nat)} (placed : Placed space live (root :: others) places)
    (enough : live.length < fuel)
    (ran : Freeing.freeKeyfile space.heap fuel (head root) = some trace) :
    ∃ places', Placed space (live.filter fun a => decide (a ∉ frees trace)) others places' := by
  have files := placed.files
  cases files with
  | @cons nodes _ rest _ holds files =>
      obtain ⟨result, own, -, -⟩ := freed placed List.mem_cons_self holds
      have same := Option.some.inj (ran.symm.trans (result fuel enough))
      subst same
      have distinct := placed.distinct
      rw [List.flatMap_cons] at distinct
      obtain ⟨-, later, across⟩ := List.nodup_append.mp distinct
      refine ⟨rest, files, later, fun a inside => List.mem_filter.mpr ⟨?_, ?_⟩⟩
      · exact placed.live a (List.mem_append_right _ inside)
      · exact decide_eq_true fun gone => across a (own a gone) a inside rfl

end Keeping

/-! ## Every session -/

theorem step_placed {s s' : Session} {c : Call}
    (placed : ∃ places, Placed s.space s.live s.shelf places) (step : Step s c s') :
    ∃ places, Placed s'.space s'.live s'.shelf places := by
  obtain ⟨places, placed⟩ := placed
  cases step with
  | null => exact ⟨[] :: places, .cons (Holds.nil _) placed.files, placed.distinct, placed.live⟩
  | first unused => exact ⟨_, first_placed placed unused⟩
  | unmade => exact ⟨places, placed⟩
  | behind shelf unused =>
      obtain ⟨moved, placed⟩ := placed.perm shelf
      exact behind_placed placed unused
  | cut shelf =>
      obtain ⟨moved, placed⟩ := placed.perm shelf
      exact cut_placed placed
  | key shelf unused =>
      obtain ⟨moved, placed⟩ := placed.perm shelf
      exact key_placed placed unused
  | keyless => exact ⟨places, placed⟩
  | append shelf appended =>
      obtain ⟨moved, placed⟩ := placed.perm shelf
      obtain ⟨space, later, ran, placed⟩ := append_placed placed (Nat.lt_succ_self _)
      have same := congrArg Prod.fst (Option.some.inj (appended.symm.trans ran))
      dsimp only at same
      subst same
      exact ⟨later, placed⟩
  | free shelf ran =>
      obtain ⟨moved, placed⟩ := placed.perm shelf
      exact free_placed placed (Nat.lt_succ_self _) ran

theorem run_placed {calls : List Call} {s : Session} (run : Run system calls s) :
    ∃ places, Placed s.space s.live s.shelf places := by
  refine run.invariant (fun _ s => ∃ places, Placed s.space s.live s.shelf places)
    (fun s init => ?_) fun _ _ _ _ placed step => step_placed placed step
  rw [show s.shelf = [] from init]
  exact ⟨[], .nil, List.nodup_nil, fun _ member => absurd member List.not_mem_nil⟩

/-- Every key file that stands in memory serves. -/
theorem Placed.serves {s : Session} {places : List (List SectionNode)} {file : List Item}
    (placed : Placed s.space s.live s.shelf places) (member : file ∈ s.shelf) :
    Serves s file := by
  obtain ⟨before, after, split⟩ := List.append_of_mem member
  have front : s.shelf.Perm (file :: (before ++ after)) := by
    rw [split]
    exact List.perm_middle
  obtain ⟨moved, placed⟩ := placed.perm front
  have files := placed.files
  cases files with
  | @cons nodes _ rest _ holds files =>
      have inside : nodes ∈ nodes :: rest := List.mem_cons_self
      obtain ⟨trace, own, once, orderly⟩ := freed placed inside holds
      refine ⟨fun before after split id fuel enough => ?_, fun item member id fuel enough => ?_,
        fun fuel enough => ?_, fun root fuel enough => ?_, _, trace, once, fun a gone => ?_,
        orderly⟩
      · subst split
        obtain ⟨front, back, rfl, later⟩ := holds.suffix
        refine later.find id (Nat.lt_of_le_of_lt ?_ (placed.enough inside enough))
        rw [owns_append, List.length_append]
        exact Nat.le_add_left _ _
      · exact holds.get member id (placed.enough inside enough)
      · exact holds.save (placed.enough inside enough)
      · cases nodes using List.reverseRecOn with
        | nil =>
            rw [← holds.shows]
            exact ⟨s.space, rfl⟩
        | append_singleton nodes last =>
            refine ⟨{ s.space with heap := setNext s.space.heap last.block root }, ?_⟩
            obtain ⟨first, start⟩ : ∃ first, head file = some first := by
              rw [← holds.shows]
              exact Option.isSome_iff_exists.mp (by simp [head])
            rw [holds.append root (placed.enough inside enough), start]
            rfl
      · exact placed.live a (List.mem_append_left _ (own a gone))

/-- The bytes but for zeroes, as a string. -/
def written (bytes : List UInt8) : CString := ⟨bytes.filter (· != 0), by simp⟩

/-- `A` -/
def a : CString := written [65]

/-- `B` -/
def b : CString := written [66]

/-- No key file, and nothing in memory. -/
def emptySession : Session := ⟨⟨Freeing.unbuilt.heap, fun _ => a⟩, [], []⟩

/-- A section `A` in the blocks 0 and 1. -/
def oneSection : Session :=
  ⟨(makeKeysection emptySession.space a none (some (0, 1))).1, [0, 1],
    [[newItem 0 a]]⟩

/-- A section `B` behind it, in the blocks 2 and 3. -/
def twoSections : Session :=
  ⟨(makeKeysection oneSection.space b (some 0) (some (2, 3))).1, [2, 3, 0, 1],
    [[newItem 0 a, newItem 2 b], []]⟩

end CprFormal.Keyfile.Shelf
