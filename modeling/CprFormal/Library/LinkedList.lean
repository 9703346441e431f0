import Mathlib.Logic.Function.Basic
import Mathlib.Data.List.Basic
import Mathlib.Data.List.Find

/-!
# Linked lists

Nodes with a link forward, given by a function, form a chain when following the
links from its start visits them in order and ends; the nodes of a chain are
determined by its start, so none of them occurs twice.  With a link back as well, a
list of nodes is linked when every link back leads to the node before, and the last
node is known.
-/

namespace CprFormal.Library.LinkedList

variable {α : Type}

/-- Following `next` from `start` visits `nodes` and ends. -/
def Chain (next : α → Option α) : Option α → List α → Prop
  | start, [] => start = none
  | start, a :: rest => start = some a ∧ Chain next (next a) rest

theorem Chain.unique {next : α → Option α} {start : Option α} {xs ys : List α}
    (first : Chain next start xs) (second : Chain next start ys) : xs = ys := by
  induction xs generalizing start ys with
  | nil =>
      cases ys with
      | nil => rfl
      | cons b ys => exact absurd (first.symm.trans second.1) nofun
  | cons a xs ih =>
      cases ys with
      | nil => exact absurd (first.1.symm.trans second) nofun
      | cons b ys =>
          obtain ⟨here, later⟩ := first
          obtain ⟨there, later'⟩ := second
          have same : a = b := Option.some.inj (here.symm.trans there)
          subst same
          rw [ih later later']

theorem Chain.head {next : α → Option α} {start : Option α} {xs : List α}
    (chain : Chain next start xs) : xs.head? = start := by
  cases xs with
  | nil => exact chain.symm
  | cons a rest => exact chain.1.symm

/-- The rest of a chain is the chain from the link of the node before it. -/
theorem Chain.behind {next : α → Option α} {start : Option α} {xs ys : List α} {a : α}
    (chain : Chain next start (xs ++ a :: ys)) : Chain next (next a) ys := by
  induction xs generalizing start with
  | nil => exact chain.2
  | cons b xs ih => exact ih chain.2

theorem Chain.nodup {next : α → Option α} {start : Option α} {nodes : List α}
    (chain : Chain next start nodes) : nodes.Nodup := by
  induction nodes generalizing start with
  | nil => exact List.nodup_nil
  | cons a rest ih =>
      refine List.nodup_cons.mpr ⟨fun again => ?_, ih chain.2⟩
      obtain ⟨xs, ys, split⟩ := List.append_of_mem again
      have later := chain.2
      rw [split] at later
      have round := congrArg List.length (later.unique later.behind)
      rw [List.length_append, List.length_cons] at round
      omega

/-- Only the links of the nodes themselves matter. -/
theorem Chain.congr {next next' : α → Option α} {start : Option α} {nodes : List α}
    (chain : Chain next start nodes) (same : ∀ a ∈ nodes, next' a = next a) :
    Chain next' start nodes := by
  induction nodes generalizing start with
  | nil => exact chain
  | cons a rest ih =>
      refine ⟨chain.1, ?_⟩
      rw [same a List.mem_cons_self]
      exact ih chain.2 fun b member => same b (List.mem_cons_of_mem a member)

/-- A node that gets a new link is followed by the chain from there. -/
theorem Chain.redirect {next next' : α → Option α} {start link : Option α}
    {xs ys zs : List α} {a : α} (chain : Chain next start (xs ++ a :: ys))
    (kept : ∀ b ∈ xs, next' b = next b) (changed : next' a = link)
    (behind : Chain next' link zs) : Chain next' start (xs ++ a :: zs) := by
  induction xs generalizing start with
  | nil =>
      refine ⟨chain.1, ?_⟩
      rw [changed]
      exact behind
  | cons b xs ih =>
      refine ⟨chain.1, ?_⟩
      rw [kept b List.mem_cons_self]
      exact ih chain.2 fun c member => kept c (List.mem_cons_of_mem b member)

/-- The last node of a chain is the first one without a link. -/
theorem Chain.find_last {next : α → Option α} {start : Option α} {xs : List α} {a : α}
    (chain : Chain next start (xs ++ [a])) :
    (xs ++ [a]).find? (fun b => (next b).isNone) = some a := by
  induction xs generalizing start with
  | nil =>
      have ends : next a = none := chain.2
      rw [List.nil_append, List.find?_cons, ends]
      rfl
  | cons b xs ih =>
      have linked : (next b).isNone = false := by
        cases link : next b with
        | none =>
            have later := chain.2
            rw [link] at later
            cases xs with
            | nil => exact absurd later.1 nofun
            | cons c xs => exact absurd later.1 nofun
        | some c => rfl
      rw [List.cons_append, List.find?_cons, linked]
      exact ih chain.2

/-! ## Doubly linked lists -/

/-- Following `next` from `start` visits `nodes` and ends; `prev` leads back and
from the first node to `prior`; the node reached last is `last`, or `prior`. -/
def Linked (next prev : α → Option α) : Option α → Option α → List α → Option α → Prop
  | prior, start, [], last => start = none ∧ last = prior
  | prior, start, a :: rest, last =>
      start = some a ∧ prev a = prior ∧ Linked next prev (some a) (next a) rest last

/-- Only the links of the nodes themselves matter. -/
theorem Linked.congr {next prev next' prev' : α → Option α} {nodes : List α}
    {prior start last : Option α} (linked : Linked next prev prior start nodes last)
    (hnext : ∀ a ∈ nodes, next' a = next a) (hprev : ∀ a ∈ nodes, prev' a = prev a) :
    Linked next' prev' prior start nodes last := by
  induction nodes generalizing prior start with
  | nil => exact linked
  | cons a rest ih =>
      obtain ⟨first, back, later⟩ := linked
      refine ⟨first, (hprev a List.mem_cons_self).trans back, ?_⟩
      rw [hnext a List.mem_cons_self]
      exact ih later (fun b member => hnext b (List.mem_cons_of_mem a member))
        (fun b member => hprev b (List.mem_cons_of_mem a member))

theorem Linked.last_eq {next prev : α → Option α} {nodes : List α} {prior start last : Option α}
    (linked : Linked next prev prior start nodes last) :
    last = (nodes.getLast?).or prior := by
  induction nodes generalizing prior start with
  | nil => exact linked.2
  | cons a rest ih =>
      have later := ih linked.2.2
      rw [later]
      cases rest with
      | nil => rfl
      | cons b rest => simp [List.getLast?_cons]

variable {next prev : α → Option α}

/-- Appending a node to a list that has a last node: the last node gets a link to
it. -/
theorem Linked.append {nodes : List α} {prior start : Option α} {last a : α}
    (linked : Linked next prev prior start nodes (some last)) (nonempty : nodes ≠ [])
    (distinct : nodes.Nodup) {next' prev' : α → Option α}
    (hlast : next' last = some a) (hnext : ∀ b ∈ nodes, b ≠ last → next' b = next b)
    (hprev : ∀ b ∈ nodes, prev' b = prev b) (ending : next' a = none)
    (back : prev' a = some last) :
    Linked next' prev' prior start (nodes ++ [a]) (some a) := by
  induction nodes generalizing prior start with
  | nil => exact absurd rfl nonempty
  | cons b rest ih =>
      obtain ⟨first, behind, later⟩ := linked
      refine ⟨first, (hprev b List.mem_cons_self).trans behind, ?_⟩
      cases rest with
      | nil =>
          have only : some last = some b := later.2
          cases only
          exact ⟨hlast, back, ending, rfl⟩
      | cons c rest =>
          obtain ⟨apart, distinct⟩ := List.nodup_cons.mp distinct
          have reached := later.last_eq
          have inRest : last ∈ c :: rest := by
            rw [List.getLast?_eq_getLast_of_ne_nil (List.cons_ne_nil c rest)] at reached
            cases reached
            exact List.getLast_mem _
          have other : b ≠ last := fun same => apart (same ▸ inRest)
          rw [hnext b List.mem_cons_self other]
          exact ih later (List.cons_ne_nil c rest) distinct
            (fun d member => hnext d (List.mem_cons_of_mem b member))
            (fun d member => hprev d (List.mem_cons_of_mem b member))

/-! ## Walking and visiting -/

/-- Follow `next` until a node meets `p` or the list ends; the outer `none` stands
for a walk that has used up its fuel. -/
def walk (next : α → Option α) (p : α → Bool) : Nat → Option α → Option (Option α)
  | 0, _ => none
  | _ + 1, none => some none
  | fuel + 1, some a => if p a then some (some a) else walk next p fuel (next a)

/-- A walk with fuel for every node finds the first node that meets `p`. -/
theorem Chain.walk_eq {start : Option α} {nodes : List α} (chain : Chain next start nodes)
    (p : α → Bool) {fuel : Nat} (enough : nodes.length < fuel) :
    walk next p fuel start = some (nodes.find? p) := by
  induction fuel generalizing nodes start with
  | zero => exact absurd enough (Nat.not_lt_zero _)
  | succ fuel ih =>
      cases nodes with
      | nil =>
          rw [show start = none from chain]
          rfl
      | cons a rest =>
          obtain ⟨first, later⟩ := chain
          have found := ih later (Nat.lt_of_succ_lt_succ enough)
          rw [first, walk, List.find?_cons]
          cases p a with
          | true => rfl
          | false => exact found

/-- The same walk over nodes that stand at the addresses `f` gives. -/
theorem Chain.walk_map {ν : Type} {f : ν → α} {start : Option α} {nodes : List ν}
    (chain : Chain next start (nodes.map f)) {p : α → Bool} {q : ν → Bool}
    (same : ∀ n ∈ nodes, p (f n) = q n) {fuel : Nat} (enough : nodes.length < fuel) :
    walk next p fuel start = some ((nodes.find? q).map f) := by
  rw [chain.walk_eq p (nodes.length_map f ▸ enough), List.find?_map]
  exact congrArg (fun found => some (Option.map f found)) (List.find?_congr same)

theorem Linked.chain {nodes : List α} {prior start last : Option α}
    (linked : Linked next prev prior start nodes last) : Chain next start nodes := by
  induction nodes generalizing prior start with
  | nil => exact linked.1
  | cons a rest ih => exact ⟨linked.1, ih linked.2.2⟩

theorem Linked.walk_eq {nodes : List α} {prior start last : Option α}
    (linked : Linked next prev prior start nodes last) (p : α → Bool) {fuel : Nat}
    (enough : nodes.length < fuel) : walk next p fuel start = some (nodes.find? p) :=
  linked.chain.walk_eq p enough

/-- What `f` gives for every node on the way to the end, or `none` when the fuel is used
up. -/
def visit {β : Type} (next : α → Option α) (f : α → Option β) : Nat → Option α → Option (List β)
  | 0, _ => none
  | _ + 1, none => some []
  | fuel + 1, some a => do
      let x ← f a
      let rest ← visit next f fuel (next a)
      some (x :: rest)

theorem Chain.visit_map {ν β : Type} {f : ν → α} {start : Option α} {nodes : List ν}
    (chain : Chain next start (nodes.map f)) {p : α → Option β} {q : ν → β}
    (same : ∀ n ∈ nodes, p (f n) = some (q n)) {fuel : Nat} (enough : nodes.length < fuel) :
    visit next p fuel start = some (nodes.map q) := by
  induction nodes generalizing start fuel with
  | nil =>
      obtain ⟨fuel, rfl⟩ := Nat.exists_eq_add_one.mpr (Nat.zero_lt_of_lt enough)
      rw [show start = none from chain]
      rfl
  | cons n rest ih =>
      obtain ⟨fuel, rfl⟩ := Nat.exists_eq_add_one.mpr (Nat.zero_lt_of_lt enough)
      obtain ⟨first, later⟩ := chain
      have behind := ih later (fun m member => same m (List.mem_cons_of_mem n member))
        (Nat.lt_of_succ_lt_succ enough)
      rw [first, visit, same n List.mem_cons_self, behind]
      rfl

end CprFormal.Library.LinkedList
