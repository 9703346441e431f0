import CprFormal.Bitset.FiniteSet

/-!
# The queries on bytes of any contents

`cpr_anybits` and `cpr_bitcount` take whole bytes, `cpr_lowestset` and `cpr_lowestclr`
stop at the padding of the last one.  They say the same about the first `n` bits exactly
when no bit of the padding is set.
-/

namespace CprFormal.Bitset.Queries

open CprFormal.Library.ByteBits
open CprFormal.Bitset.Model CprFormal.Bitset.FiniteSet

/-- The queries look at the first `n` bits only and agree with each other. -/
structure Agree (bits : BitsT) (n : Nat) : Prop where
  bitcount : cprBitcount bits n = (List.range n).countP (cprBitget bits)
  anybits : cprAnybits bits n = true ↔ cprLowestset bits n < n
  allbits : cprAllbits bits n = true ↔ cprLowestclr bits n = n

section Queries

variable {bits : List UInt8} {n : Nat}

/-- Only the bytes of the first `n` bits are looked at. -/
theorem queries_take (bits : List UInt8) (n : Nat) :
    cprBitcount (some (bits.take (cprBitsize n))) n = cprBitcount (some bits) n ∧
    cprAnybits (some (bits.take (cprBitsize n))) n = cprAnybits (some bits) n ∧
    cprLowestset (some (bits.take (cprBitsize n))) n = cprLowestset (some bits) n ∧
    cprLowestclr (some (bits.take (cprBitsize n))) n = cprLowestclr (some bits) n := by
  simp [cprBitcount, cprAnybits, cprLowestset, cprLowestclr, List.take_take]

theorem bitAt_take (bits : List UInt8) {size i : Nat} (inside : i < 8 * size) :
    bitAt (bits.take size) i = bitAt bits i := by
  have byte : i / 8 < size := by omega
  unfold bitAt
  rw [List.getD_eq_getElem?_getD, List.getElem?_take_of_lt byte, ← List.getD_eq_getElem?_getD]

/-- `cpr_bitcount` counts the padding too. -/
theorem bitcount_whole (available : cprBitsize n ≤ bits.length) :
    cprBitcount (some bits) n = (List.range (8 * cprBitsize n)).countP (bitAt bits) := by
  by_cases zero : n = 0
  · subst zero
    rfl
  · have length : (bits.take (cprBitsize n)).length = cprBitsize n :=
      List.length_take_of_le available
    unfold cprBitcount
    dsimp only
    rw [if_neg zero, bitcount_loop, Nat.zero_add, ← countP_bitAt, length]
    refine List.countP_congr fun i member => ?_
    rw [bitAt_take bits (List.mem_range.mp member)]

/-- The bits behind the first `n` are counted besides. -/
theorem bitcount_padding (available : cprBitsize n ≤ bits.length) :
    cprBitcount (some bits) n = (List.range n).countP (bitAt bits) +
      (List.range (8 * cprBitsize n - n)).countP (fun i => bitAt bits (n + i)) := by
  have split : 8 * cprBitsize n = n + (8 * cprBitsize n - n) :=
    (Nat.add_sub_cancel' (bitsize_le n)).symm
  rw [bitcount_whole available, split, List.range_add, List.countP_append, List.countP_map,
    Nat.add_sub_cancel_left]
  rfl

/-- Counting right means that no bit of the padding is set. -/
theorem bitcount_iff (available : cprBitsize n ≤ bits.length) :
    cprBitcount (some bits) n = (List.range n).countP (bitAt bits) ↔
      ∀ i, n ≤ i → i < 8 * cprBitsize n → bitAt bits i = false := by
  rw [bitcount_padding available, Nat.add_eq_left, List.countP_eq_zero]
  constructor
  · intro clear i behind inside
    have bit := clear (i - n) (List.mem_range.mpr (by omega))
    rw [Nat.add_sub_cancel' behind] at bit
    exact Bool.eq_false_iff.mpr bit
  · intro clear i member
    have inside := List.mem_range.mp member
    rw [clear (n + i) (Nat.le_add_right n i) (by omega)]
    exact Bool.false_ne_true

/-- The set bits among the first `n`. -/
def members (bits : List UInt8) (n : Nat) : Finset Nat :=
  (Finset.range n).filter fun i => bitAt bits i = true

/-- With a clear padding the bytes are a block that holds these bits. -/
theorem take_holds (available : cprBitsize n ≤ bits.length)
    (clear : ∀ i, n ≤ i → i < 8 * cprBitsize n → bitAt bits i = false) :
    Holds n (bits.take (cprBitsize n)) (members bits n) where
  length := List.length_take_of_le available
  below i member := Finset.mem_range.mp (Finset.mem_filter.mp member).1
  bits i := by
    by_cases inside : i < 8 * cprBitsize n
    · rw [bitAt_take bits inside]
      by_cases first : i < n
      · simp [members, first]
      · rw [clear i (Nat.le_of_not_lt first) inside]
        simp [members, first]
    · have outside : bitAt (bits.take (cprBitsize n)) i = false := by
        refine bitAt_outside ?_
        rw [List.length_take_of_le available]
        omega
      have behind : ¬ i < n := fun first => inside (Nat.lt_of_lt_of_le first (bitsize_le n))
      rw [outside]
      simp [members, behind]

/-- Queries that answer for a set of bits agree with each other. -/
theorem answers_agree {bits : BitsT} {set : Finset Nat} (answers : Answers n bits set) :
    (cprAnybits bits n = true ↔ cprLowestset bits n < n) ∧
    (cprAllbits bits n = true ↔ cprLowestclr bits n = n) := by
  constructor
  · rw [answers.anybits]
    rcases set.eq_empty_or_nonempty with empty | some_
    · rw [answers.lowestset_none empty, empty]
      simp
    · exact ⟨fun _ => answers.below _ (answers.lowestset some_).1, fun _ => some_⟩
  · rw [answers.allbits]
    rcases (Finset.range n \ set).eq_empty_or_nonempty with full | some_
    · refine ⟨fun _ => answers.lowestclr_none full, fun _ => Finset.Subset.antisymm ?_ ?_⟩
      · exact fun i member => Finset.mem_range.mpr (answers.below i member)
      · exact Finset.sdiff_eq_empty_iff_subset.mp full
    · have least := Finset.mem_sdiff.mp (answers.lowestclr some_).1
      constructor
      · intro whole
        rw [whole] at least
        exact absurd least.1 least.2
      · intro last
        exact absurd last (Nat.ne_of_lt (Finset.mem_range.mp least.1))

end Queries

/-- The queries agree on the first `n` bits exactly when no bit of the padding is set. -/
theorem queries_agree_iff (bits : List UInt8) {n : Nat} (available : cprBitsize n ≤ bits.length) :
    Agree (some bits) n ↔
      ∀ i, n ≤ i → i < 8 * cprBitsize n → cprBitget (some bits) i = false := by
  have get : cprBitget (some bits) = bitAt bits := funext (bitget_some bits)
  rw [get]
  constructor
  · rintro ⟨counted, _, _⟩
    rw [get] at counted
    exact (bitcount_iff available).mp counted
  · intro clear
    obtain ⟨count, any, set, clr⟩ := queries_take bits n
    obtain ⟨anybits, allbits⟩ := answers_agree (holds_answers (take_holds available clear))
    unfold cprAllbits at allbits
    rw [any, set] at anybits
    rw [count, clr] at allbits
    exact ⟨get ▸ (bitcount_iff available).mpr clear, anybits, allbits⟩

/-- Three bits of a byte that has no others. -/
theorem queries_agree_three : Agree (some [0b101]) 3 :=
  (queries_agree_iff [0b101] (by decide)).mpr (by decide)

/-- The fourth bit of a byte is counted with the first three, which are clear. -/
theorem queries_disagree :
    cprBitcount (some [0b1000]) 3 = 1 ∧ cprAnybits (some [0b1000]) 3 = true ∧
      cprLowestset (some [0b1000]) 3 = 3 ∧ ¬ Agree (some [0b1000]) 3 := by
  have counted : cprBitcount (some [0b1000]) 3 = 1 := by
    rw [bitcount_whole (by decide)]
    decide
  refine ⟨counted, by decide, by decide, fun agree => ?_⟩
  have first := agree.bitcount
  rw [counted] at first
  exact absurd first (by decide)

end CprFormal.Bitset.Queries
