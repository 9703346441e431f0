import CprFormal.Memio.Cursors

/-!
# Texts put into a `memio_t`

`cpr_sputmem` counts the text only up to the size of the block, so it does not tell
a longer text from one that fills the block.  The count is then compared with what is
free behind `put`, and only in an empty block does a full count fit.
-/

namespace CprFormal.Memio.Texts

open CprFormal.Library.FlatMemory
open CprFormal.Strchar.Strlen
open CprFormal.Memio.Model CprFormal.Memio.Cursors

/-- The bytes that `cpr_sputmem` counts of a text. -/
def counted (mem : MemioT) (text : CString) : List UInt8 :=
  text.bytes.take (cprStrlen text.char mem.size)

theorem counted_length (mem : MemioT) (text : CString) :
    (counted mem text).length = cprStrlen text.char mem.size := by
  unfold counted
  rw [List.length_take, cprStrlen_char]
  change min _ text.length = _
  omega

/-- A text is counted whole exactly when the block has room for it at all, or for one
byte. -/
theorem counted_whole_iff (mem : MemioT) (text : CString) :
    counted mem text = text.bytes ↔ text.length ≤ max 1 mem.size := by
  have count := cprStrlen_char text mem.size
  have length := counted_length mem text
  constructor
  · intro whole
    have same : (counted mem text).length = text.length := congrArg List.length whole
    omega
  · intro short
    apply List.take_of_length_le
    change text.length ≤ _
    omega

/-- The first characters of a text in memory. -/
theorem reads_slice {mem : Memory UInt8} {text : List UInt8} (reads : Reads mem text) {n : Nat}
    (within : n ≤ text.length) : mem.slice 0 n = text.take n := by
  have length : (text.take n).length = n := List.length_take_of_le within
  apply List.ext_getElem
  · rw [Memory.slice_length, length]
  · intro i low high
    rw [Memory.getElem_slice, Nat.zero_add, List.getElem_take]
    exact reads.char i (by omega)

/-- `cpr_sputmem` stores what it counts when that fits behind `put`. -/
theorem sputmem_exact {mem : MemioT} (below : mem.put ≤ mem.size) (word : mem.size < 2 ^ 64)
    {text : CString} (nonempty : text.bytes ≠ []) :
    cprSputmem mem (some text) =
      if mem.put + (counted mem text).length ≤ mem.size then
        ({ mem with
            data := mem.data.write mem.put (counted mem text)
            put := mem.put + (counted mem text).length }, true)
      else (mem, false) := by
  have positive : 0 < text.length := List.length_pos_of_ne_nil nonempty
  have first : ¬ text.char 0 = 0 := by
    rw [CString.char_eq_zero_iff]
    omega
  have count := cprStrlen_char text mem.size
  have small : cprStrlen text.char mem.size < 2 ^ 64 := by omega
  have length := counted_length mem text
  have copied : Memory.slice text.char 0 (cprStrlen text.char mem.size) = counted mem text :=
    reads_slice text.reads (show cprStrlen text.char mem.size ≤ text.length by omega)
  unfold cprSputmem
  simp only [if_neg first]
  rw [xputmem_exact below word, UInt64.toNat_ofNat_of_lt' small, length]
  dsimp only
  rw [copied]

/-- A text is appended whole, or refused with nothing changed. -/
structure AllOrNothing (mem : MemioT) (text : CString) : Prop where
  accepted : (cprSputmem mem (some text)).2 = true ↔ mem.put + text.length ≤ mem.size
  appended : mem.put + text.length ≤ mem.size →
    (cprSputmem mem (some text)).1 =
      { mem with data := mem.data.write mem.put text.bytes, put := mem.put + text.length }
  refused : ¬ mem.put + text.length ≤ mem.size → (cprSputmem mem (some text)).1 = mem

/-- A text longer than a block that is not of size zero, put into it while it is
empty. -/
def Overlong (mem : MemioT) (text : CString) : Prop :=
  mem.put = 0 ∧ 0 < mem.size ∧ mem.size < text.length

/-- Text puts are all or nothing except for a text longer than the empty block. -/
theorem sputmem_all_or_nothing_iff (mem : MemioT) (below : mem.put ≤ mem.size)
    (word : mem.size < 2 ^ 64) (text : CString) (nonempty : text.bytes ≠ []) :
    AllOrNothing mem text ↔ ¬ Overlong mem text := by
  have positive : 0 < text.length := List.length_pos_of_ne_nil nonempty
  have stored := sputmem_exact below word nonempty
  have length := counted_length mem text
  have count := cprStrlen_char text mem.size
  constructor
  · rintro ⟨accepted, _, _⟩ ⟨empty, sized, long⟩
    rw [if_pos (by omega)] at stored
    have whole := accepted.mp (by rw [stored])
    omega
  · intro short
    unfold Overlong at short
    by_cases fits : mem.put + text.length ≤ mem.size
    · have whole : counted mem text = text.bytes :=
        (counted_whole_iff mem text).mpr (by omega)
      have length' : text.bytes.length = text.length := rfl
      rw [whole, length', if_pos fits] at stored
      refine ⟨?_, fun _ => ?_, fun large => absurd fits large⟩
      · simp only [stored, fits]
      · rw [stored]
    · rw [if_neg (by omega)] at stored
      refine ⟨?_, fun small => absurd small fits, fun _ => ?_⟩
      · simp [stored, fits]
      · rw [stored]

/-- A text of two bytes behind the first byte of a block of four. -/
theorem sputmem_all_or_nothing_iff_two :
    AllOrNothing ⟨fun _ => 0, 0, 1, 4, true⟩ ⟨[97, 98], by simp⟩ :=
  (sputmem_all_or_nothing_iff ⟨fun _ => 0, 0, 1, 4, true⟩ (by decide) (by decide)
    ⟨[97, 98], by simp⟩ (by simp)).mpr (fun overlong => absurd overlong.1 (by decide))

/-- Into an empty block of one byte the text `"ab"` is put, cut to `"a"`. -/
theorem sputmem_truncated :
    ¬ ∀ (mem : MemioT), mem.put ≤ mem.size → mem.size < 2 ^ 64 →
      ∀ text : CString, text.bytes ≠ [] → AllOrNothing mem text := by
  intro claimed
  have whole := claimed ⟨fun _ => 0, 0, 0, 1, true⟩ (by decide) (by decide)
    ⟨[97, 98], by simp⟩ (by simp)
  exact absurd (whole.accepted.mp (by decide)) (by decide)

end CprFormal.Memio.Texts
