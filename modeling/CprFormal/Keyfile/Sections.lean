import CprFormal.Keyfile.Store
import CprFormal.Library.LinkedList

/-!
# The list of sections in memory

The sections of a key file are linked by their `next` pointers.  `make_keysection`
overwrites the pointer of the section it is given, so what followed that section is
cut off; `append_keysections` walks to the last section and keeps both lists.
-/

namespace CprFormal.Keyfile.Sections

open CprFormal.Keyfile.Grammar CprFormal.Keyfile.Model
open CprFormal.Library.FlatMemory CprFormal.Library.LinkedList
open CprFormal.Strchar.Compare CprFormal.Strchar.Ctype CprFormal.Strchar.Strlen

/-- A `keysection_t` with its link. -/
structure Node where
  next : Option Nat
  keys : List KeydataT
  id : CString

/-- Sections by address. -/
abbrev Heap : Type := Memory Node

def next (heap : Heap) (a : Nat) : Option Nat := (heap a).next

/-- `prior->next = section` -/
def setNext (heap : Heap) (prior : Nat) (link : Option Nat) : Heap :=
  heap.set prior { heap prior with next := link }

/-- `make_keysection`, where `malloc` gives `block`; it returns the new section.  The name
of a section that has got a block is taken to get one too. -/
def makeKeysection (heap : Heap) (id : CString) (prior block : Option Nat) :
    Heap × Option Nat :=
  let heap := match prior with
    | some a => setNext heap a block
    | none => heap
  match block with
  | none => (heap, none)
  | some b => (heap.set b ⟨none, [], cprUpper id.char 0 32⟩, some b)

/-- `find_keysection` -/
def findKeysection (heap : Heap) (root : Option Nat) (id : CString) (fuel : Nat) :
    Option (Option Nat) :=
  walk (next heap) (fun a => cprMatch id (heap a).id) fuel root

/-- `append_keysections` -/
def appendKeysections (heap : Heap) (root into : Option Nat) (fuel : Nat) :
    Option (Heap × Option Nat) :=
  match into with
  | none => some (heap, root)
  | some first =>
      match walk (next heap) (fun a => (next heap a).isNone) fuel (some first) with
      | none => none
      | some none => some (heap, some first)
      | some (some prior) => some (setNext heap prior root, some first)

/-- Every section is still there, in its place among the others and with its keys,
one section is new, and the new name is found. -/
structure Added (heap heap' : Heap) (root : Option Nat) (nodes : List Nat) (block : Nat)
    (id : CString) : Prop where
  reached : ∃ nodes', Chain (next heap') root nodes' ∧ nodes.Sublist nodes' ∧
    nodes'.Perm (block :: nodes)
  keys : ∀ a ∈ nodes, (heap' a).keys = (heap a).keys ∧ (heap' a).id = (heap a).id
  found : ∃ a, ∀ fuel, nodes.length + 1 < fuel →
    findKeysection heap' root id fuel = some (some a)

/-- The sections of `into` are followed by those of `root`, each as it was. -/
def Appended (heap : Heap) (root into : Option Nat) (nodes front : List Nat) : Prop :=
  ∀ fuel, front.length < fuel →
    ∃ heap' start, appendKeysections heap root into fuel = some (heap', start) ∧
      Chain (next heap') start (front ++ nodes) ∧
      ∀ a, (heap' a).keys = (heap a).keys ∧ (heap' a).id = (heap a).id

theorem setNext_same (heap : Heap) (prior : Nat) (link : Option Nat) :
    next (setNext heap prior link) prior = link := by
  unfold next setNext
  rw [Memory.set_same]

theorem setNext_other (heap : Heap) {prior a : Nat} (link : Option Nat) (apart : a ≠ prior) :
    setNext heap prior link a = heap a :=
  heap.set_other _ apart

/-- Only a link is overwritten. -/
theorem setNext_fields (heap : Heap) (prior a : Nat) (link : Option Nat) :
    (setNext heap prior link a).keys = (heap a).keys ∧
      (setNext heap prior link a).id = (heap a).id := by
  by_cases same : a = prior
  · subst same
    unfold setNext
    rw [Memory.set_same]
    exact ⟨rfl, rfl⟩
  · rw [setNext_other heap link same]
    exact ⟨rfl, rfl⟩

/-! ## `make_keysection` -/

section Making

variable {heap : Heap} {id : CString} {prior block : Nat}

/-- The list after `make_keysection` behind `prior`. -/
theorem makeKeysection_apply (apart : prior ≠ block) :
    let heap' := (makeKeysection heap id (some prior) (some block)).1
    next heap' prior = some block ∧ heap' block = ⟨none, [], cprUpper id.char 0 32⟩ ∧
      (∀ a, a ≠ block → a ≠ prior → heap' a = heap a) ∧
      ∀ a, a ≠ block → (heap' a).keys = (heap a).keys ∧ (heap' a).id = (heap a).id := by
  have elsewhere (a : Nat) (other : a ≠ block) :
      (makeKeysection heap id (some prior) (some block)).1 a =
        setNext heap prior (some block) a :=
    Memory.set_other _ _ other
  refine ⟨?_, Memory.set_same _ _ _, fun a other notPrior => ?_, fun a other => ?_⟩
  · unfold next
    rw [elsewhere prior apart]
    exact setNext_same heap prior (some block)
  · rw [elsewhere a other, setNext_other heap _ notPrior]
  · rw [elsewhere a other]
    exact setNext_fields heap prior a (some block)

/-- What followed `prior` is cut off. -/
theorem makeKeysection_chain {root : Option Nat} {front behind : List Nat}
    (listed : Chain (next heap) root (front ++ prior :: behind))
    (fresh : block ∉ front ++ prior :: behind) :
    Chain (next (makeKeysection heap id (some prior) (some block)).1) root
      (front ++ [prior] ++ [block]) := by
  rw [List.append_assoc]
  have apart : prior ≠ block := fun same => fresh (by simp [same])
  obtain ⟨link, new, kept, -⟩ := @makeKeysection_apply heap id prior block apart
  have distinct := listed.nodup
  refine listed.redirect (fun b member => ?_) link ⟨rfl, ?_⟩
  · have notBlock : b ≠ block := fun same => fresh (by simp [← same, member])
    have notPrior : b ≠ prior := fun same =>
      (List.nodup_append.mp distinct).2.2 b member prior List.mem_cons_self same
    exact congrArg Node.next (kept b notBlock notPrior)
  · exact congrArg Node.next new

/-- The name finds a section of the list or, when it has not been cut, the new one. -/
theorem found_iff {nodes : List Nat} {heap' : Heap} {root : Option Nat}
    (listed : Chain (next heap') root (nodes ++ [block]))
    (ids : ∀ a ∈ nodes, (heap' a).id = (heap a).id)
    (new : (heap' block).id = cprUpper id.char 0 32) :
    (∃ a, ∀ fuel, nodes.length + 1 < fuel →
      findKeysection heap' root id fuel = some (some a)) ↔
      id.length ≤ 32 ∨ ∃ a ∈ nodes, cprMatch id (heap a).id = true := by
  have length : (nodes ++ [block]).length = nodes.length + 1 := List.length_append
  have search (fuel : Nat) (enough : nodes.length + 1 < fuel) :
      findKeysection heap' root id fuel =
        some ((nodes ++ [block]).find? fun a => cprMatch id (heap' a).id) :=
    listed.walk_eq _ (length ▸ enough)
  have reads : Reads (fun j => id.char (0 + j)) id.bytes := reads_zero_add.mpr id.reads
  have last : cprMatch id (heap' block).id = true ↔ id.length ≤ 32 := by
    rw [new]
    exact cprMatch_cut_iff (congrArg (List.map toupper) (textAt_bytes reads 32)) tolower_toupper
  have some_matches : (∃ a ∈ nodes ++ [block], cprMatch id (heap' a).id = true) ↔
      id.length ≤ 32 ∨ ∃ a ∈ nodes, cprMatch id (heap a).id = true := by
    constructor
    · rintro ⟨a, member, same⟩
      rcases List.mem_append.mp member with old | only
      · rw [ids a old] at same
        exact .inr ⟨a, old, same⟩
      · rw [List.mem_singleton.mp only] at same
        exact .inl (last.mp same)
    · rintro (short | ⟨a, member, same⟩)
      · exact ⟨block, by simp, last.mpr short⟩
      · refine ⟨a, List.mem_append_left _ member, ?_⟩
        rw [ids a member]
        exact same
  rw [← some_matches]
  constructor
  · rintro ⟨a, found⟩
    have here := (search _ (Nat.lt_succ_self _)).symm.trans (found _ (Nat.lt_succ_self _))
    have first := Option.some.inj here
    exact ⟨a, List.mem_of_find?_eq_some first,
      List.find?_some (p := fun b => cprMatch id (heap' b).id) first⟩
  · rintro ⟨a, member, same⟩
    have hit : ((nodes ++ [block]).find? fun b => cprMatch id (heap' b).id).isSome = true :=
      List.find?_isSome.mpr ⟨a, member, same⟩
    obtain ⟨b, first⟩ := Option.isSome_iff_exists.mp hit
    exact ⟨b, fun fuel enough => (search fuel enough).trans (congrArg some first)⟩

/-- A section is added behind the last one, and found when its name is not cut or was in
the list before. -/
theorem added_iff {root : Option Nat} {nodes : List Nat}
    (listed : Chain (next heap) root nodes) (member : prior ∈ nodes) (fresh : block ∉ nodes) :
    Added heap (makeKeysection heap id (some prior) (some block)).1 root nodes block id ↔
      next heap prior = none ∧
      (id.length ≤ 32 ∨ ∃ a ∈ nodes, cprMatch id (heap a).id = true) := by
  obtain ⟨front, behind, split⟩ := List.append_of_mem member
  subst split
  have apart : prior ≠ block := fun same => fresh (same ▸ member)
  obtain ⟨-, new, -, fields⟩ := @makeKeysection_apply heap id prior block apart
  have chain := @makeKeysection_chain heap id prior block root front behind listed fresh
  have keys (a : Nat) (old : a ∈ front ++ prior :: behind) :=
    fields a fun same => fresh (same ▸ old)
  have last : next heap prior = none ↔ behind = [] := by
    have rest := listed.behind
    constructor
    · intro ends
      rw [ends] at rest
      exact rest.unique rfl
    · intro none_behind
      rw [none_behind] at rest
      exact rest
  rw [last]
  constructor
  · rintro ⟨⟨nodes', reached, -, whole⟩, -, found⟩
    have length := whole.length_eq
    rw [reached.unique chain] at length
    have none_behind : behind = [] := by
      simp only [List.length_append, List.length_cons, List.length_nil] at length
      exact List.length_eq_zero_iff.mp (by omega)
    subst none_behind
    refine ⟨rfl, ?_⟩
    exact (found_iff chain (fun a old => (keys a old).2) (congrArg Node.id new)).mp found
  · rintro ⟨none_behind, named⟩
    subst none_behind
    refine ⟨⟨_, chain, List.sublist_append_left _ _, ?_⟩, keys, ?_⟩
    · exact List.perm_append_comm
    · exact (found_iff chain (fun a old => (keys a old).2) (congrArg Node.id new)).mpr named

end Making

theorem appended {heap : Heap} {root into : Option Nat} {nodes front : List Nat}
    (behind : Chain (next heap) root nodes) (before : Chain (next heap) into front)
    (apart : ∀ a ∈ front, a ∉ nodes) : Appended heap root into nodes front := by
  intro fuel enough
  cases front using List.reverseRecOn with
  | nil =>
      rw [show into = none from before]
      exact ⟨heap, root, rfl, behind, fun _ => ⟨rfl, rfl⟩⟩
  | append_singleton front last =>
      cases into with
      | none =>
          cases front with
          | nil => exact absurd before.1 nofun
          | cons b front => exact absurd before.1 nofun
      | some first =>
          have walked := before.walk_eq (fun a => (next heap a).isNone) enough
          rw [before.find_last] at walked
          refine ⟨setNext heap last root, some first, ?_, ?_,
            fun a => setNext_fields heap last a root⟩
          · unfold appendKeysections
            simp only [walked]
          · have distinct := before.nodup
            rw [← List.append_cons]
            refine before.redirect (fun b member => ?_) (setNext_same heap last root) ?_
            · have other : b ≠ last := fun same =>
                (List.nodup_append.mp distinct).2.2 b member last List.mem_cons_self same
              exact congrArg Node.next (setNext_other heap root other)
            · refine behind.congr fun b member => ?_
              have other : b ≠ last := fun same =>
                apart last (by simp) (same ▸ member)
              exact congrArg Node.next (setNext_other heap root other)

theorem section_list_laws_iff {heap : Heap} {root : Option Nat} {nodes : List Nat}
    {prior block : Nat} {id : CString} (listed : Chain (next heap) root nodes)
    (member : prior ∈ nodes) (fresh : block ∉ nodes) {lists : Heap} {more into : Option Nat}
    {behind front : List Nat} (listed_more : Chain (next lists) more behind)
    (listed_into : Chain (next lists) into front) (apart : ∀ a ∈ front, a ∉ behind) :
    (Added heap (makeKeysection heap id (some prior) (some block)).1 root nodes block id ∧
      Appended lists more into behind front) ↔
      next heap prior = none ∧
      (id.length ≤ 32 ∨ ∃ a ∈ nodes, cprMatch id (heap a).id = true) := by
  rw [added_iff listed member fresh]
  exact and_iff_left (appended listed_more listed_into apart)

/-- Two sections `A` and `B` at the addresses 0 and 1. -/
def twoSections : Heap := fun a =>
  if a = 0 then ⟨some 1, [], ⟨[65], by simp⟩⟩ else ⟨none, [], ⟨[66], by simp⟩⟩

theorem twoSections_listed : Chain (next twoSections) (some 0) [0, 1] := ⟨rfl, rfl, rfl⟩

theorem section_list_laws_two :
    (Added twoSections (makeKeysection twoSections ⟨[67], by simp⟩ (some 1) (some 2)).1
        (some 0) [0, 1] 2 ⟨[67], by simp⟩ ∧
      Appended twoSections (some 0) (some 5) [0, 1] [5]) ↔
      next twoSections 1 = none ∧ ((⟨[67], by simp⟩ : CString).length ≤ 32 ∨
        ∃ a ∈ [0, 1], cprMatch ⟨[67], by simp⟩ (twoSections a).id = true) := by
  have alone : Chain (next twoSections) (some 5) [5] := ⟨rfl, rfl⟩
  exact section_list_laws_iff twoSections_listed (by decide) (by decide) twoSections_listed alone
    (by decide)

/-- A section put behind the first of two cuts off the second, which is no longer found. -/
theorem makeKeysection_interior :
    findKeysection twoSections (some 0) ⟨[66], by simp⟩ 4 = some (some 1) ∧
      findKeysection (makeKeysection twoSections ⟨[67], by simp⟩ (some 0) (some 2)).1 (some 0)
        ⟨[66], by simp⟩ 4 = some none ∧
      ¬ Added twoSections (makeKeysection twoSections ⟨[67], by simp⟩ (some 0) (some 2)).1
        (some 0) [0, 1] 2 ⟨[67], by simp⟩ := by
  refine ⟨by decide, by decide, fun added => ?_⟩
  have last := ((added_iff twoSections_listed (by decide) (by decide)).mp added).1
  cases last

end CprFormal.Keyfile.Sections
