import CprFormal.Keyfile.Shelf

/-!
# Loading into memory

`load_keyfile` calls `make_keysection` and `make_keydata` as it reads.  The key file it
leaves in memory is the list of sections that the lines of the file say, and what was in
memory before is still there.
-/

namespace CprFormal.Keyfile.Placement

open CprFormal.Keyfile.Freeing (SectionNode entries foldl_loadLine put)
open CprFormal.Keyfile.Model (Entry KeysectionT cprUpper fgetsLines loadKeyfile rootSection)
open CprFormal.Keyfile.Linked CprFormal.Keyfile.Shelf
open CprFormal.Library.FlatMemory CprFormal.Library.Transition
open CprFormal.Strchar.Strlen

/-- The calls of `load_keyfile` for what it has read, with its `root` and `current`: the first
section, then one behind the current one for each header, and the keys in the current one. -/
inductive Loading (start : Session) : List Entry → Nat → Nat → Session → Prop where
  | root {s : Session} {block text : Nat}
      (step : Step start (.makeKeysection ⟨[42], by simp⟩ none (some (block, text))) s) :
      Loading start [] block block s
  | skip {read : List Entry} {root current : Nat} {s : Session}
      (loading : Loading start read root current s) :
      Loading start (read ++ [.skip]) root current s
  | header {read : List Entry} {root current block text : Nat} {s s' : Session} {lp : CString}
      (loading : Loading start read root current s)
      (step : Step s (.makeKeysection lp (some current) (some (block, text))) s') :
      Loading start (read ++ [.header (cprUpper lp.char 0 32)]) root block s'
  | key {read : List Entry} {root current key name text : Nat} {s s' : Session}
      {kw body : CString} (loading : Loading start read root current s)
      (step : Step s (.makeKeydata current kw body (some (key, name, text))) s') :
      Loading start (read ++ [.key (Store.storedId kw) body]) root current s'

/-- A list in which every value occurs once is cut at it in one way. -/
theorem cut_unique {α β : Type} {f : α → β} {xs xs' ys ys' : List α} {x y : α}
    (distinct : ((xs ++ x :: ys).map f).Nodup) (same : xs ++ x :: ys = xs' ++ y :: ys')
    (value : f x = f y) : xs = xs' ∧ x = y ∧ ys = ys' := by
  induction xs generalizing xs' with
  | nil =>
      cases xs' with
      | nil =>
          obtain ⟨rfl, rfl⟩ := List.cons.inj same
          exact ⟨rfl, rfl, rfl⟩
      | cons z xs' =>
          obtain ⟨rfl, rfl⟩ := List.cons.inj same
          refine absurd ?_ (List.nodup_cons.mp distinct).1
          exact value ▸ List.mem_map_of_mem (List.mem_append_right _ List.mem_cons_self)
  | cons z xs ih =>
      cases xs' with
      | nil =>
          obtain ⟨rfl, rfl⟩ := List.cons.inj same
          refine absurd ?_ (List.nodup_cons.mp distinct).1
          exact value ▸ List.mem_map_of_mem (List.mem_append_right _ List.mem_cons_self)
      | cons w xs' =>
          obtain ⟨rfl, rest⟩ := List.cons.inj same
          obtain ⟨rfl, rfl, rfl⟩ := ih (List.nodup_cons.mp distinct).2 rest
          exact ⟨rfl, rfl, rfl⟩

/-- The pointers to all sections. -/
def handles (shelf : List (List Item)) : List Nat := shelf.flatten.map Item.handle

theorem blocks_nodup {nodes : List SectionNode} (distinct : (owns nodes).Nodup) :
    (nodes.map SectionNode.block).Nodup := by
  refine List.pairwise_map.mpr ((List.nodup_flatMap.mp distinct).2.imp fun apart same => ?_)
  exact apart List.mem_cons_self (same ▸ List.mem_cons_self)

theorem owns_flatten (places : List (List SectionNode)) :
    owns places.flatten = places.flatMap owns := by
  induction places with
  | nil => rfl
  | cons nodes places ih => rw [List.flatten_cons, owns_append, ih, List.flatMap_cons]

theorem handles_eq {space : Space} {shelf : List (List Item)} {places : List (List SectionNode)}
    (files : List.Forall₂ (Holds space) places shelf) :
    handles shelf = places.flatten.map SectionNode.block := by
  unfold handles
  induction files with
  | nil => rfl
  | cons holds files ih =>
      rw [List.flatten_cons, List.flatten_cons, List.map_append, List.map_append, ih,
        ← holds.shows, List.map_map]
      rfl

/-- No two sections of a shelf in memory have the same pointer. -/
theorem handles_nodup {s : Session} {places : List (List SectionNode)}
    (placed : Placed s.space s.live s.shelf places) : (handles s.shelf).Nodup := by
  rw [handles_eq placed.files]
  exact blocks_nodup (owns_flatten places ▸ placed.distinct)

/-- A section is found on the shelf in one way. -/
theorem shelf_unique {shelf : List (List Item)} (distinct : (handles shelf).Nodup)
    {before after before' after' : List Item} {item item' : Item}
    {others others' : List (List Item)}
    (one : shelf.Perm ((before ++ item :: after) :: others))
    (two : shelf.Perm ((before' ++ item' :: after') :: others'))
    (same : item.handle = item'.handle) :
    before = before' ∧ item = item' ∧ after = after' ∧ others.Perm others' := by
  have whole := one.symm.trans two
  have first : (handles ((before ++ item :: after) :: others)).Nodup :=
    (one.flatten.map Item.handle).nodup_iff.mp distinct
  unfold handles at first
  rw [List.flatten_cons, List.map_append] at first
  obtain ⟨here, -, across⟩ := List.nodup_append.mp first
  have member : before' ++ item' :: after' ∈ (before ++ item :: after) :: others :=
    whole.mem_iff.mpr List.mem_cons_self
  rcases List.mem_cons.mp member with equal | elsewhere
  · obtain ⟨rfl, rfl, rfl⟩ := cut_unique here equal.symm same
    exact ⟨rfl, rfl, rfl, whole.cons_inv⟩
  · have inside : item'.handle ∈ others.flatten.map Item.handle :=
      List.mem_map_of_mem (List.mem_flatten.mpr
        ⟨_, elsewhere, List.mem_append_right _ List.mem_cons_self⟩)
    refine absurd same (across _ (List.mem_map_of_mem ?_) _ inside)
    exact List.mem_append_right _ List.mem_cons_self

/-! ## What has been loaded -/

/-- The key file of `load_keyfile` after some of the lines, with the current section last. -/
structure Reads (start : Session) (read : List Entry) (root current : Nat) (s : Session) :
    Prop where
  placed : ∃ places, Placed s.space s.live s.shelf places
  loaded : ∃ before item others, s.shelf.Perm ((before ++ [item]) :: others) ∧
    item.handle = current ∧ head (before ++ [item]) = some root ∧
    (before.map Item.group, item.group) = read.foldl put ([], rootSection) ∧
    ∀ file ∈ start.shelf, file ∈ others

theorem foldl_put (read : List Entry) (entry : Entry) (loaded : List KeysectionT × KeysectionT) :
    (read ++ [entry]).foldl put loaded = put (read.foldl put loaded) entry := by
  rw [List.foldl_append]
  rfl

section Lines

variable {start s s' : Session} {read : List Entry} {root current : Nat}

theorem root_reads {block text : Nat}
    (placed : ∃ places, Placed start.space start.live start.shelf places)
    (step : Step start (.makeKeysection ⟨[42], by simp⟩ none (some (block, text))) s) :
    Reads start [] block block s := by
  refine ⟨step_placed placed step, ?_⟩
  have name : cprUpper (⟨[42], by simp⟩ : CString).char 0 32 = ⟨[42], by simp⟩ := by decide
  cases step with
  | first unused =>
      refine ⟨[], newItem block ⟨[42], by simp⟩, start.shelf, List.Perm.refl _, rfl, rfl, ?_,
        fun file member => member⟩
      unfold newItem
      rw [name]
      rfl

theorem header_reads {block text : Nat} {lp : CString} (reads : Reads start read root current s)
    (step : Step s (.makeKeysection lp (some current) (some (block, text))) s') :
    Reads start (read ++ [.header (cprUpper lp.char 0 32)]) root block s' := by
  obtain ⟨⟨places, placed⟩, before, item, others, shelf, last, first, groups, kept⟩ := reads
  refine ⟨step_placed ⟨places, placed⟩ step, ?_⟩
  cases step with
  | @behind _ _ _ rest _ _ _ found unused =>
      obtain ⟨rfl, rfl, rfl, same⟩ := shelf_unique (handles_nodup placed) shelf found last
      refine ⟨before ++ [item], newItem block lp, [] :: rest, ?_, rfl, ?_, ?_,
        fun file member => ?_⟩
      · rw [List.append_assoc]
        exact List.Perm.refl _
      · rw [← first]
        cases before with
        | nil => rfl
        | cons other before => rfl
      · rw [foldl_put, ← groups, List.map_append]
        rfl
      · exact .tail _ (same.mem_iff.mp (kept file member))

theorem key_reads {key name text : Nat} {kw body : CString}
    (reads : Reads start read root current s)
    (step : Step s (.makeKeydata current kw body (some (key, name, text))) s') :
    Reads start (read ++ [.key (Store.storedId kw) body]) root current s' := by
  obtain ⟨⟨places, placed⟩, before, item, others, shelf, last, first, groups, kept⟩ := reads
  refine ⟨step_placed ⟨places, placed⟩ step, ?_⟩
  cases step with
  | @key _ _ _ rest _ _ _ _ _ found unused =>
      obtain ⟨rfl, rfl, rfl, same⟩ := shelf_unique (handles_nodup placed) shelf found last
      refine ⟨before, _, rest, List.Perm.refl _, rfl, ?_, ?_, fun file member => ?_⟩
      · rw [← first]
        cases before with
        | nil => rfl
        | cons other before => rfl
      · rw [foldl_put, ← groups]
        rfl
      · exact same.mem_iff.mp (kept file member)

theorem loading_reads (placed : ∃ places, Placed start.space start.live start.shelf places)
    (loading : Loading start read root current s) : Reads start read root current s := by
  induction loading with
  | root step => exact root_reads placed step
  | skip loading ih =>
      obtain ⟨placed, before, item, others, shelf, last, first, groups, kept⟩ := ih
      refine ⟨placed, before, item, others, shelf, last, first, ?_, kept⟩
      rw [foldl_put, ← groups]
      rfl
  | header loading step ih => exact header_reads ih step
  | key loading step ih => exact key_reads ih step

end Lines

/-- What `load_keyfile` leaves in memory is the key file that the file says, whatever key
files were there before, and those are still there. -/
theorem load_keyfile_placed {calls : List Call} {start s : Session} {root current : Nat}
    (run : Run system calls start) (stack : Memory UInt8) (file : List UInt8)
    (loading : Loading start (entries stack (fgetsLines file.length file)) root current s) :
    (∃ items ∈ s.shelf, head items = some root ∧
      items.map Item.group = loadKeyfile stack file ∧ Serves s items) ∧
    ∀ old ∈ start.shelf, old ∈ s.shelf ∧ Serves s old := by
  obtain ⟨⟨places, placed⟩, before, item, others, shelf, last, first, groups, kept⟩ :=
    loading_reads (run_placed run) loading
  have here : before ++ [item] ∈ s.shelf := shelf.mem_iff.mpr List.mem_cons_self
  refine ⟨⟨before ++ [item], here, first, ?_, placed.serves here⟩, fun old member => ?_⟩
  · have load := foldl_loadLine ⟨stack, [], rootSection⟩ (fgetsLines file.length file)
    rw [← groups] at load
    obtain ⟨front, back⟩ := Prod.mk.inj load
    rw [loadKeyfile, Model.Loading.sections, front, back, List.map_append]
    rfl
  · have there : old ∈ s.shelf := shelf.mem_iff.mpr (.tail _ (kept old member))
    exact ⟨there, placed.serves there⟩

/-- `*` -/
def star : CString := written [42]

/-- `ab` -/
def ab : CString := written [97, 98]

/-- `c` -/
def c : CString := written [99]

/-- The first section in the blocks 0 and 1. -/
def noLine : Session :=
  ⟨(makeKeysection emptySession.space star none (some (0, 1))).1, [0, 1],
    [[newItem 0 star]]⟩

/-- The key of the line `ab=c` in the blocks 2, 3 and 4. -/
def oneLine : Session :=
  ⟨(makeKeydata noLine.space 0 ab c (some (2, 3, 4))).1, [2, 3, 4, 0, 1],
    [[⟨0, Store.makeKeydata (newItem 0 star).group ab c⟩]]⟩

theorem oneLine_loading : Loading emptySession
    (entries (fun _ => 0) (fgetsLines 5 [97, 98, 61, 99, 10])) 0 0 oneLine := by
  have read : entries (fun _ => 0) (fgetsLines 5 [97, 98, 61, 99, 10]) =
      [] ++ [.key (Store.storedId ab) c] := by decide +kernel
  have root : Step emptySession (.makeKeysection star none (some (0, 1))) noLine :=
    .first ⟨by decide, by decide⟩
  have alone : noLine.shelf.Perm [[] ++ [newItem 0 star]] := List.Perm.refl _
  have key : Step noLine (.makeKeydata 0 ab c (some (2, 3, 4))) oneLine :=
    .key alone ⟨by decide, by decide⟩
  rw [read]
  exact .key (.root root) key

theorem load_keyfile_placed_one :
    (∃ items ∈ oneLine.shelf, head items = some 0 ∧
      items.map Item.group = loadKeyfile (fun _ => 0) [97, 98, 61, 99, 10] ∧
      Serves oneLine items) ∧
    ∀ old ∈ emptySession.shelf, old ∈ oneLine.shelf ∧ Serves oneLine old := by
  have start : Run system [] emptySession := .start rfl
  exact load_keyfile_placed start (fun _ => 0) [97, 98, 61, 99, 10] oneLine_loading

end CprFormal.Keyfile.Placement
