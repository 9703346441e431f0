import Mathlib.Data.List.Nodup
import Mathlib.Data.List.Perm.Basic
import Mathlib.Data.List.Flatten

/-!
# Traces of reads and frees

A trace that takes a structure apart releases it when it frees each of its blocks once and
reads none of them afterwards.  Traces of parts that share no block can be put one behind
the other.
-/

namespace CprFormal.Library.Freeing

variable {α β : Type}

inductive Access (α : Type) where
  | read (a : α)
  | free (a : α)
  deriving DecidableEq

def Access.address : Access α → α
  | read a | free a => a

/-- The blocks a trace frees, in order. -/
def frees (trace : List (Access α)) : List α :=
  trace.filterMap fun
    | .free a => some a
    | .read _ => none

/-- The second access does not read what the first one has freed. -/
def Before (x y : Access α) : Prop := ∀ a, x = .free a → y ≠ .read a

/-- No block is read after it has been freed. -/
def Orderly (trace : List (Access α)) : Prop := trace.Pairwise Before

/-- A trace frees the owned blocks and no others, each once, and reads none afterwards. -/
structure Releases (trace : List (Access α)) (owned : List α) : Prop where
  frees : (frees trace).Perm owned
  once : (Freeing.frees trace).Nodup
  orderly : Orderly trace

theorem frees_append (first second : List (Access α)) :
    frees (first ++ second) = frees first ++ frees second :=
  List.filterMap_append

theorem frees_flatMap (l : List β) (trace : β → List (Access α)) :
    frees (l.flatMap trace) = l.flatMap fun b => frees (trace b) :=
  List.filterMap_flatMap

theorem before_of_ne {x y : Access α} (apart : x.address ≠ y.address) : Before x y := by
  rintro a rfl rfl
  exact apart rfl

theorem before_read (a : α) (y : Access α) : Before (.read a) y := nofun

theorem before_free (x : Access α) (a : α) : Before x (.free a) := nofun

/-- A trace of parts that own different blocks, each with an orderly trace of its own. -/
theorem orderly_flatMap {l : List β} {trace : β → List (Access α)} {owned : β → List α}
    (each : ∀ b ∈ l, Orderly (trace b)) (own : ∀ b, ∀ x ∈ trace b, x.address ∈ owned b)
    (distinct : (l.flatMap owned).Nodup) : Orderly (l.flatMap trace) := by
  refine List.pairwise_flatMap.mpr ⟨each, ?_⟩
  refine (List.nodup_flatMap.mp distinct).2.imp fun apart x first y second => ?_
  refine before_of_ne fun same => ?_
  exact apart (own _ x first) (same ▸ own _ y second)

end CprFormal.Library.Freeing
