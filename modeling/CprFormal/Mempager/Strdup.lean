import CprFormal.Mempager.Alignment

/-!
# What `pager_strdup` leaves in the page

`pager_strdup` counts the characters that fit behind a header with their terminator,
asks for one byte more and hands that size to `cpr_strcpy` as the limit.  Only a text
that is longer than what fits reaches this limit; every other text that is not empty
loses its last character, and behind the empty one no terminator is stored.
-/

namespace CprFormal.Mempager.Strdup

open CprFormal.Library CprFormal.Library.FlatMemory CprFormal.Library.Transition
open CprFormal.Strchar.Strlen CprFormal.Strchar.Strcpy
open CprFormal.Mempager.Model CprFormal.Mempager.Safety CprFormal.Mempager.Runs
open CprFormal.Mempager.Admission

/-- The characters that fit into a page with their terminator. -/
def room (pager : MempagerT) : Nat := pager.size - sizeofPage - 1

/-- The memory at `out` holds the text as far as it fits, with the terminator inside the
bytes that have been asked for. -/
structure Duplicated (s : State) (text : CString) (after : State) (out : Nat) : Prop where
  copied : Reads (fun j => after.heap.bytes (out + j)) (text.bytes.take (room s.pager))
  inside : (text.bytes.take (room s.pager)).length < strdupSize s (some text)

section Duplicate

variable {s : State}

/-- The size asked for has place for what fits and for the terminator. -/
theorem strdupSize_eq (large : sizeofPage + 2 ≤ s.pager.size) (word : s.pager.size < 2 ^ 64)
    (text : CString) : strdupSize s (some text) = min text.length (room s.pager) + 1 := by
  have counted := cprStrlen_char text (room s.pager)
  have positive : 1 ≤ room s.pager := by
    unfold room
    omega
  unfold strdupSize
  rw [SizeT.sub_of_le (show sizeofPage ≤ s.pager.size by omega), SizeT.sub_of_le (by omega)]
  change SizeT.wrap (cprStrlen text.char (room s.pager) + 1) = _
  rw [counted, Nat.max_eq_right positive, SizeT.wrap_of_lt]
  unfold room
  omega

/-- What is left at `out` is what `cpr_strcpy` leaves there. -/
theorem strdup_copies {text : CString} {block : Option Nat} {after : State} {out : Nat}
    (done : pagerStrdup s (some text) block = some (after, some out)) :
    ∃ allocated, pagerAlloc s (strdupSize s (some text)) block = some (allocated, some out) ∧
      after.heap.bytes =
        cprStrcpy allocated.heap.bytes out text (strdupSize s (some text)) := by
  unfold pagerStrdup at done
  obtain ⟨⟨allocated, start⟩, call, copied⟩ := Option.map_eq_some_iff.mp done
  cases start with
  | none => cases copied
  | some start =>
      cases copied
      exact ⟨allocated, call, rfl⟩

theorem request_bytes (s : State) (block : Option Nat) :
    (pagerRequest s block).1.heap.bytes = s.heap.bytes := by
  unfold pagerRequest
  split
  · rfl
  · split
    · rfl
    · split
      · rfl
      · rfl

/-- Allocating changes no data bytes. -/
theorem alloc_bytes {size : Nat} {block result : Option Nat} {after : State}
    (done : pagerAlloc s size block = some (after, result)) :
    after.heap.bytes = s.heap.bytes := by
  unfold pagerAlloc at done
  split at done
  · cases done
    rfl
  · obtain ⟨page, -, served⟩ := Option.map_eq_some_iff.mp done
    cases page with
    | some a =>
        cases served
        rfl
    | none =>
        have same := request_bytes s block
        dsimp only at served
        generalize pagerRequest s block = requested at same served
        obtain ⟨requested, page⟩ := requested
        cases page with
        | none =>
            cases served
            exact same
        | some a =>
            cases served
            exact same

/-- The duplicate is faithful exactly when the text is longer than what fits, or is empty
and the byte at `out` happened to be a NUL. -/
theorem duplicated_iff (large : sizeofPage + 2 ≤ s.pager.size) (word : s.pager.size < 2 ^ 64)
    {text : CString} {block : Option Nat} {after : State} {out : Nat}
    (done : pagerStrdup s (some text) block = some (after, some out)) :
    Duplicated s text after out ↔
      room s.pager < text.length ∨ text.length = 0 ∧ s.heap.bytes out = 0 := by
  obtain ⟨allocated, call, bytes⟩ := strdup_copies done
  have size := strdupSize_eq large word text
  rw [alloc_bytes call, size] at bytes
  have fits : text.bytes.take (room s.pager) =
      text.bytes.take (min text.length (room s.pager) + 1 - 1) := by
    rw [Nat.add_sub_cancel, Nat.min_comm]
    exact List.take_eq_take_min
  have length : (text.bytes.take (room s.pager)).length = min text.length (room s.pager) := by
    rw [List.length_take, Nat.min_comm]
    rfl
  have copied (counted : Nat) :
      Reads (fun j => cprStrcpy s.heap.bytes out text (counted + 1) (out + j))
        (text.bytes.take (counted + 1 - 1)) ↔
      counted + 1 ≤ text.length ∨ text.length = 0 ∧ s.heap.bytes out = 0 :=
    cprStrcpy_reads_iff (Nat.le_add_left 1 counted)
  have longer : min text.length (room s.pager) + 1 ≤ text.length ↔ room s.pager < text.length := by
    omega
  rw [← longer, ← copied, ← fits, ← bytes]
  constructor
  · exact Duplicated.copied
  · exact fun reads => ⟨reads, by omega⟩

end Duplicate

/-- After every run, the duplicate of a text is faithful exactly when the text is longer
than what fits into a page, or is empty and the first free byte of the serving page
happens to be a NUL. -/
theorem pager_strdup_iff (pagesize : Nat) (limit : UInt32) {trace : List Op} {s : State}
    (run : Run (anySizes pagesize limit) trace s) (large : sizeofPage + 2 ≤ s.pager.size)
    (word : s.pager.size < 2 ^ 64) (text : CString) {block : Option Nat} (fresh : NewBlock s block)
    {after : State} {out : Nat}
    (done : pagerStrdup s (some text) block = some (after, some out)) :
    Duplicated s text after out ↔
      room s.pager < text.length ∨
      text.length = 0 ∧ ∀ a, firstFree s 1 block = some a → s.heap.bytes a = 0 := by
  have keeps := run_keeps run
  rw [duplicated_iff large word done]
  refine or_congr_right (and_congr_right fun empty => ?_)
  obtain ⟨_, call, _⟩ := strdup_copies done
  have first := alloc_firstFree keeps fresh call
  rw [strdupSize_eq large word, empty, Nat.zero_min] at first
  constructor
  · intro nul a place
    cases first.symm.trans place
    exact nul
  · exact fun nul => nul out first

/-- A page with room for two characters has the first two of three. -/
theorem pager_strdup_cut :
    ∃ after, pagerStrdup (created 27 0) (some ⟨[97, 98, 99], by simp⟩) (some 65536) =
        some (after, some 65560) ∧
      Duplicated (created 27 0) ⟨[97, 98, 99], by simp⟩ after 65560 := by
  have start : Run (anySizes 27 0) [] (created 27 0) := .start ⟨rfl, rfl⟩
  have fresh : NewBlock (created 27 0) (some 65536) := created_fresh (by decide)
  exact ⟨_, rfl, (pager_strdup_iff 27 0 start (by decide) (by decide) _ fresh rfl).mpr
    (.inl (by decide))⟩

/-- The duplicate of "ab" in a page of 4096 bytes is "a". -/
theorem pager_strdup_loses :
    ∃ s after, Run (anySizes 4096 0) [] s ∧
      pagerStrdup s (some ⟨[97, 98], by simp⟩) (some 65536) = some (after, some 65560) ∧
      ¬ Duplicated s ⟨[97, 98], by simp⟩ after 65560 := by
  refine ⟨created 4096 0, _, .start ⟨rfl, rfl⟩, rfl, fun duplicated => ?_⟩
  have last : (1 : Nat) < (([97, 98] : List UInt8).take (room (created 4096 0).pager)).length := by
    decide
  exact duplicated.copied.ne_zero last (by decide)

end CprFormal.Mempager.Strdup
