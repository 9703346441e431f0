import Mathlib.Data.Finset.Sort
import Mathlib.Order.Bounds.Basic
import CprFormal.Bitset.Model

/-!
# Bit sets are finite sets

Every call that makes or changes a bit set keeps the padding of its last byte clear,
so that the queries, which look at whole bytes, answer for the set of its bits below
`bitsize`.
-/

namespace CprFormal.Bitset.FiniteSet

open CprFormal.Library.ByteBits CprFormal.Library.Search
open CprFormal.Bitset.Model

theorem div_lt_bitsize {i bitsize : Nat} (inside : i < bitsize) : i / 8 < cprBitsize bitsize := by
  unfold cprBitsize
  dsimp only
  split <;> omega

theorem bitsize_le (bitsize : Nat) : bitsize ≤ 8 * cprBitsize bitsize := by
  unfold cprBitsize
  dsimp only
  split <;> omega

theorem bit_bytemask (i : Nat) {k : Nat} (inside : k < 8) :
    bit (bytemask i) k = decide (k = i % 8) := by
  have table : ∀ n < 8, ∀ k < 8, bit (UInt8.ofNat (1 <<< n)) k = decide (k = n) := by decide
  exact table (i % 8) (Nat.mod_lt _ (by decide)) k inside

/-- The test of `cpr_bitget`. -/
theorem masked_nonzero (b : UInt8) (i : Nat) : (b &&& bytemask i != 0) = bit b (i % 8) := by
  have low : i % 8 < 8 := Nat.mod_lt _ (by decide)
  cases set : bit b (i % 8) with
  | true =>
      refine bne_iff_ne.mpr fun zero => ?_
      have clear := eq_zero_iff.mp zero (i % 8) low
      rw [bit_and, set, bit_bytemask i low, decide_eq_true rfl] at clear
      cases clear
  | false =>
      have zero : b &&& bytemask i = 0 := eq_zero_iff.mpr fun k inside => by
        rw [bit_and, bit_bytemask i inside]
        by_cases here : k = i % 8
        · rw [here, set, Bool.false_and]
        · rw [decide_eq_false here, Bool.and_false]
      rw [zero]
      rfl

theorem bitget_some (bits : List UInt8) (i : Nat) : cprBitget (some bits) i = bitAt bits i :=
  masked_nonzero _ i

/-- `count_bits` counts the bits that are set. -/
theorem countBits_eq (b : UInt8) : countBits b = bitCount b := by
  induction b using countBits.induct with
  | case1 =>
      rw [countBits, if_pos rfl, bitCount_zero]
  | case2 b nonzero ih =>
      rw [countBits, if_neg nonzero, ih, bitCount_clear_lowest b nonzero]

theorem bitcount_loop (bits : List UInt8) (total : Nat) :
    bits.foldl (fun total b => total + countBits b) total = total + (bits.map bitCount).sum := by
  induction bits generalizing total with
  | nil => rfl
  | cons b bits ih =>
      rw [List.foldl_cons, ih, List.map_cons, List.sum_cons, countBits_eq, Nat.add_assoc]

/-! ## The bits of a block -/

/-- `__builtin_ffs` of a word whose low byte is not clear. -/
theorem ffs_low {word : BitVec 32} {p : Nat → Bool} (low : ∀ k < 8, word.getLsbD k = p k)
    (some_ : ∃ k < 8, p k = true) :
    ∃ k < 8, builtinFfs word = k + 1 ∧ p k = true ∧ ∀ j < k, p j = false := by
  have least := Nat.find_spec some_
  have before : ∀ j < Nat.find some_, p j = false := fun j earlier => by
    have missed := Nat.find_min some_ earlier
    rw [not_and] at missed
    simpa using missed (Nat.lt_trans earlier least.1)
  refine ⟨Nat.find some_, least.1, ?_, least.2, before⟩
  have found : searchUp (fun k => word.getLsbD k) 32 0 = (Nat.find some_, true) := by
    refine searchUp_eq (Nat.zero_le _) (by omega) ?_ fun k _ earlier => ?_
    · rw [low _ least.1, least.2]
    · rw [low _ (Nat.lt_trans earlier least.1), before k earlier]
  unfold builtinFfs
  rw [found]

/-- A bit test `p` on bytes as the loop sees it: no bit of `skip` meets it, and of every
other byte `word` shows the bits that do. -/
structure Shows (skip : UInt8) (word : UInt8 → BitVec 32) (p : UInt8 → Nat → Bool) : Prop where
  nothing : ∀ k < 8, p skip k = false
  something : ∀ b, b ≠ skip → ∃ k < 8, p b k = true
  agrees : ∀ b, ∀ k < 8, (word b).getLsbD k = p b k

theorem promote_bit (b : UInt8) {k : Nat} (inside : k < 8) : (promote b).getLsbD k = bit b k := by
  have small : k < 32 := by omega
  simp [promote, bit, small]

theorem shows_set : Shows 0x00 promote bit where
  nothing k _ := bit_zero k
  something b nonzero := by
    by_contra clear
    push Not at clear
    exact nonzero (eq_zero_iff.mpr fun k low => by simpa using clear k low)
  agrees b k inside := promote_bit b inside

theorem shows_clear : Shows 0xFF (fun b => ~~~promote b) (fun b k => !bit b k) where
  nothing := by decide
  something b some_clear := by
    by_contra full
    push Not at full
    refine some_clear (bit_ext fun k low => ?_)
    have all_set : ∀ k < 8, bit 0xFF k = true := by decide
    rw [all_set k low]
    simpa using full k low
  agrees b k inside := by
    have small : k < 32 := by omega
    rw [BitVec.getLsbD_not, decide_eq_true small, Bool.true_and, promote_bit b inside]

/-- Position `i` of a list of bytes meets the test; none behind its end does. -/
def meets (p : UInt8 → Nat → Bool) (bytes : List UInt8) (i : Nat) : Bool :=
  match bytes[i / 8]? with
  | some b => p b (i % 8)
  | none => false

theorem meets_cons_low (p : UInt8 → Nat → Bool) (b : UInt8) (bytes : List UInt8) {i : Nat}
    (low : i < 8) : meets p (b :: bytes) i = p b i := by
  unfold meets
  rw [Nat.div_eq_of_lt low, Nat.mod_eq_of_lt low]
  rfl

theorem meets_cons_high (p : UInt8 → Nat → Bool) (b : UInt8) (bytes : List UInt8) {i : Nat}
    (high : 8 ≤ i) : meets p (b :: bytes) i = meets p bytes (i - 8) := by
  obtain ⟨j, rfl⟩ := Nat.exists_eq_add_of_le high
  unfold meets
  rw [Nat.add_sub_cancel_left, Nat.add_div_left _ (by omega), Nat.add_mod_left]
  rfl

/-- The loop finds the first position that meets the test, unless it is in the padding. -/
theorem lowestLoop_spec {skip : UInt8} {word : UInt8 → BitVec 32} {p : UInt8 → Nat → Bool}
    (shows_ : Shows skip word p) (bitsize : Nat) (bytes : List UInt8) (i : Nat) :
    (∃ m, meets p bytes m = true ∧ (∀ j < m, meets p bytes j = false) ∧
      lowestLoop bitsize skip word bytes i =
        if i * 8 + m < bitsize then i * 8 + m else bitsize) ∨
    ((∀ m, meets p bytes m = false) ∧ lowestLoop bitsize skip word bytes i = bitsize) := by
  induction bytes generalizing i with
  | nil => exact .inr ⟨fun _ => rfl, rfl⟩
  | cons b bytes ih =>
      by_cases skipped : b = skip
      · subst skipped
        have unmet : ∀ j < 8, meets p (b :: bytes) j = false := fun j low => by
          rw [meets_cons_low p b bytes low, shows_.nothing j low]
        have next : lowestLoop bitsize b word (b :: bytes) i =
            lowestLoop bitsize b word bytes (i + 1) := by
          rw [lowestLoop, if_neg (by simp)]
        rw [next]
        rcases ih (i + 1) with ⟨m, met, before, result⟩ | ⟨nowhere, result⟩
        · refine .inl ⟨m + 8, ?_, fun j earlier => ?_, ?_⟩
          · rwa [meets_cons_high p b bytes (by omega), Nat.add_sub_cancel]
          · by_cases low : j < 8
            · exact unmet j low
            · rw [meets_cons_high p b bytes (by omega)]
              exact before (j - 8) (by omega)
          · rw [result, show (i + 1) * 8 + m = i * 8 + (m + 8) by omega]
        · refine .inr ⟨fun j => ?_, result⟩
          by_cases low : j < 8
          · exact unmet j low
          · rw [meets_cons_high p b bytes (by omega)]
            exact nowhere (j - 8)
      · obtain ⟨k, low, ffs, met, before⟩ := ffs_low (shows_.agrees b) (shows_.something b skipped)
        refine .inl ⟨k, ?_, fun j earlier => ?_, ?_⟩
        · rw [meets_cons_low p b bytes low, met]
        · rw [meets_cons_low p b bytes (by omega), before j earlier]
        · rw [lowestLoop, if_pos skipped, ffs, Nat.add_sub_cancel]

theorem meets_inside (p : UInt8 → Nat → Bool) {bytes : List UInt8} {i : Nat}
    (inside : i / 8 < bytes.length) : meets p bytes i = p (bytes.getD (i / 8) 0) (i % 8) := by
  unfold meets
  rw [List.getElem?_eq_getElem inside, List.getD_eq_getElem _ _ inside]

/-- What the loop answers for the positions below `bitsize` that meet the test. -/
theorem lowestLoop_isLeast {skip : UInt8} {word : UInt8 → BitVec 32} {p : UInt8 → Nat → Bool}
    (shows_ : Shows skip word p) {bitsize : Nat} {bytes : List UInt8} {members : Finset Nat}
    (here : ∀ i, i ∈ members ↔ i < bitsize ∧ meets p bytes i = true) :
    (members.Nonempty → IsLeast members (lowestLoop bitsize skip word bytes 0)) ∧
    (members = ∅ → lowestLoop bitsize skip word bytes 0 = bitsize) := by
  rcases lowestLoop_spec shows_ bitsize bytes 0 with ⟨m, met, before, result⟩ | ⟨nowhere, result⟩
  · rw [Nat.zero_mul, Nat.zero_add] at result
    have lower {i : Nat} (member : i ∈ members) : m ≤ i := by
      by_contra earlier
      have unmet := before i (Nat.lt_of_not_le earlier)
      rw [((here i).mp member).2] at unmet
      cases unmet
    by_cases inside : m < bitsize
    · rw [if_pos inside] at result
      have member : m ∈ members := (here m).mpr ⟨inside, met⟩
      refine ⟨fun _ => ?_, fun empty => ?_⟩
      · rw [result]
        exact ⟨member, fun i other => lower other⟩
      · rw [empty] at member
        cases member
    · rw [if_neg inside] at result
      refine ⟨fun ⟨i, member⟩ => ?_, fun _ => result⟩
      have first := lower member
      have below := ((here i).mp member).1
      omega
  · refine ⟨fun ⟨i, member⟩ => ?_, fun _ => result⟩
    have unmet := nowhere i
    rw [((here i).mp member).2] at unmet
    cases unmet

/-- The block holds the set: its bits are the members, and the padding is clear. -/
structure Holds (bitsize : Nat) (bits : List UInt8) (members : Finset Nat) : Prop where
  length : bits.length = cprBitsize bitsize
  below : ∀ i ∈ members, i < bitsize
  bits : ∀ i, bitAt bits i = decide (i ∈ members)

theorem makebits_holds (bitsize : Nat) :
    Holds bitsize (List.replicate (cprBitsize bitsize) 0) ∅ where
  length := List.length_replicate
  below := by simp
  bits := by simp

/-- One byte of a block is changed. -/
theorem Holds.set {bitsize : Nat} {bits : List UInt8} {members members' : Finset Nat}
    (holds : Holds bitsize bits members) {offset : Nat} (inside : offset < bitsize) (b : UInt8)
    (here : ∀ k < 8, bit b k = decide (8 * (offset / 8) + k ∈ members'))
    (elsewhere : ∀ i, i / 8 ≠ offset / 8 → (i ∈ members' ↔ i ∈ members))
    (below : ∀ i ∈ members', i < bitsize) : Holds bitsize (bits.set (offset / 8) b) members' where
  length := by rw [List.length_set, holds.length]
  below := below
  bits i := by
    have room : offset / 8 < bits.length := by
      rw [holds.length]
      exact div_lt_bitsize inside
    rw [bitAt_set room]
    by_cases same : i / 8 = offset / 8
    · rw [if_pos same, here _ (Nat.mod_lt _ (by decide)), ← same, Nat.div_add_mod]
    · rw [if_neg same, holds.bits]
      exact decide_eq_decide.mpr (elsewhere i same).symm

theorem Holds.byte {bitsize : Nat} {bits : List UInt8} {members : Finset Nat}
    (holds : Holds bitsize bits members) (p : Nat) {k : Nat} (inside : k < 8) :
    bit (bits.getD p 0) k = decide (8 * p + k ∈ members) := by
  rw [← bitAt_position bits p inside, holds.bits]

/-- Position `8 * (i / 8) + k` is `i` exactly when `k` is the bit of `i`. -/
theorem position_eq_iff (i k : Nat) : 8 * (i / 8) + k = i ↔ k = i % 8 := by
  omega

theorem bitset_holds {bitsize : Nat} {bits : List UInt8} {members : Finset Nat}
    (holds : Holds bitsize bits members) {offset : Nat} (inside : offset < bitsize) :
    Holds bitsize (bits.set (offset / 8) (bits.getD (offset / 8) 0 ||| bytemask offset))
      (insert offset members) := by
  refine holds.set inside _ (fun k low => ?_) (fun i apart => ?_) (fun i member => ?_)
  · rw [bit_or, holds.byte _ low, bit_bytemask _ low, ← Bool.decide_or]
    refine decide_eq_decide.mpr ?_
    rw [Finset.mem_insert, position_eq_iff offset k, or_comm]
  · have other : i ≠ offset := fun same => apart (by rw [same])
    simp [other]
  · rcases Finset.mem_insert.mp member with rfl | old
    · exact inside
    · exact holds.below i old

theorem bitclr_holds {bitsize : Nat} {bits : List UInt8} {members : Finset Nat}
    (holds : Holds bitsize bits members) {offset : Nat} (inside : offset < bitsize) :
    Holds bitsize (bits.set (offset / 8) (bits.getD (offset / 8) 0 &&& ~~~bytemask offset))
      (members.erase offset) := by
  refine holds.set inside _ (fun k low => ?_) (fun i apart => ?_) (fun i member => ?_)
  · rw [bit_and, holds.byte _ low, bit_not _ low, bit_bytemask _ low, ← decide_not,
      ← Bool.decide_and]
    refine decide_eq_decide.mpr ?_
    rw [Finset.mem_erase, Ne, position_eq_iff offset k, and_comm]
  · have other : i ≠ offset := fun same => apart (by rw [same])
    simp [other]
  · exact holds.below i (Finset.mem_of_mem_erase member)

/-- A block made byte by byte from two blocks. -/
theorem combine_holds {bitsize : Nat} {bits : List UInt8} {members members' : Finset Nat}
    (holds : Holds bitsize bits members) (f : Nat → UInt8) (subset : members' ⊆ members)
    (here : ∀ p, ∀ k < 8, bit (f p) k = decide (8 * p + k ∈ members')) :
    Holds bitsize ((List.range (cprBitsize bitsize)).map f) members' where
  length := by simp
  below i member := holds.below i (subset member)
  bits i := by
    rw [bitAt_map_range]
    by_cases inside : i / 8 < cprBitsize bitsize
    · rw [if_pos inside, here _ _ (Nat.mod_lt _ (by decide)), Nat.div_add_mod]
    · rw [if_neg inside, eq_comm, decide_eq_false_iff_not]
      exact fun member => inside (div_lt_bitsize (holds.below i (subset member)))

theorem makemask_holds {bitsize : Nat} {bits mask : List UInt8} {members masked : Finset Nat}
    (holds : Holds bitsize bits members) (other : Holds bitsize mask masked) :
    Holds bitsize ((List.range (cprBitsize bitsize)).map fun pos =>
      bits.getD pos 0 &&& mask.getD pos 0) (members ∩ masked) := by
  refine combine_holds holds _ Finset.inter_subset_left fun p k low => ?_
  rw [bit_and, holds.byte p low, other.byte p low, ← Bool.decide_and]
  exact decide_eq_decide.mpr Finset.mem_inter.symm

theorem foldmask_holds {bitsize : Nat} {bits mask : List UInt8} {members masked : Finset Nat}
    (holds : Holds bitsize bits members) (other : Holds bitsize mask masked) :
    Holds bitsize ((List.range (cprBitsize bitsize)).map fun pos =>
      bits.getD pos 0 &&& ~~~mask.getD pos 0) (members \ masked) := by
  refine combine_holds holds _ Finset.sdiff_subset fun p k low => ?_
  rw [bit_and, bit_not _ low, holds.byte p low, other.byte p low, ← decide_not,
    ← Bool.decide_and]
  exact decide_eq_decide.mpr Finset.mem_sdiff.symm

/-- What the queries say about a bit set that stands for `members`.  No bit behind
`bitsize`, in the padding or farther, is set. -/
structure Answers (bitsize : Nat) (bits : BitsT) (members : Finset Nat) : Prop where
  below : ∀ i ∈ members, i < bitsize
  bitget : ∀ i, cprBitget bits i = decide (i ∈ members)
  bitcount : cprBitcount bits bitsize = members.card
  anybits : cprAnybits bits bitsize = true ↔ members.Nonempty
  allbits : cprAllbits bits bitsize = true ↔ members = Finset.range bitsize
  lowestset : members.Nonempty → IsLeast members (cprLowestset bits bitsize)
  lowestset_none : members = ∅ → cprLowestset bits bitsize = bitsize
  lowestclr : (Finset.range bitsize \ members).Nonempty →
    IsLeast (Finset.range bitsize \ members : Finset Nat) (cprLowestclr bits bitsize)
  lowestclr_none : Finset.range bitsize \ members = ∅ → cprLowestclr bits bitsize = bitsize

theorem Holds.take {bitsize : Nat} {bits : List UInt8} {members : Finset Nat}
    (holds : Holds bitsize bits members) : bits.take (cprBitsize bitsize) = bits :=
  List.take_of_length_le (Nat.le_of_eq holds.length)

/-- The bits of the whole block are the members, since the padding is clear. -/
theorem bitcount_holds {bitsize : Nat} {bits : List UInt8} {members : Finset Nat}
    (holds : Holds bitsize bits members) :
    cprBitcount (some bits) bitsize = members.card := by
  by_cases zero : bitsize = 0
  · have empty : members = ∅ := Finset.eq_empty_of_forall_notMem fun i member => by
      have inside := holds.below i member
      omega
    rw [empty]
    simp [cprBitcount, zero]
  · have counted : members.card = (List.range (8 * bits.length)).countP (bitAt bits) := by
      have listed : members = ((List.range (8 * bits.length)).filter (bitAt bits)).toFinset := by
        ext i
        rw [List.mem_toFinset, List.mem_filter, List.mem_range, holds.bits, decide_eq_true_eq,
          holds.length]
        refine ⟨fun member => ⟨?_, member⟩, fun both => both.2⟩
        exact Nat.lt_of_lt_of_le (holds.below i member) (bitsize_le bitsize)
      rw [listed, List.toFinset_card_of_nodup (List.nodup_range.filter _),
        List.countP_eq_length_filter]
    unfold cprBitcount
    dsimp only
    rw [if_neg zero, holds.take, bitcount_loop, Nat.zero_add, ← countP_bitAt, ← counted]

theorem anybits_holds {bitsize : Nat} {bits : List UInt8} {members : Finset Nat}
    (holds : Holds bitsize bits members) :
    cprAnybits (some bits) bitsize = true ↔ members.Nonempty := by
  unfold cprAnybits
  dsimp only
  rw [holds.take, List.any_eq_true]
  simp only [bne_iff_ne]
  rw [← exists_bitAt_iff]
  simp only [holds.bits, decide_eq_true_eq]
  rfl

/-- All bits below `bitsize` are set when there are `bitsize` of them. -/
theorem allbits_iff {bitsize : Nat} {bits : BitsT} {members : Finset Nat}
    (below : ∀ i ∈ members, i < bitsize) (counted : cprBitcount bits bitsize = members.card) :
    cprAllbits bits bitsize = true ↔ members = Finset.range bitsize := by
  unfold cprAllbits
  rw [counted, beq_iff_eq]
  constructor
  · intro full
    refine Finset.eq_of_subset_of_card_le (fun i member => ?_) ?_
    · exact Finset.mem_range.mpr (below i member)
    · rw [full, Finset.card_range]
  · intro whole
    rw [whole, Finset.card_range]

/-- The loops answer for a position exactly when its byte is in the block. -/
theorem meets_members {bitsize : Nat} {bits : List UInt8} {members : Finset Nat}
    (holds : Holds bitsize bits members) (flip : Bool → Bool) {i : Nat}
    (inside : i < bitsize) :
    meets (fun b k => flip (bit b k)) bits i = flip (decide (i ∈ members)) := by
  have position : i / 8 < bits.length := by
    rw [holds.length]
    exact div_lt_bitsize inside
  rw [meets_inside _ position, ← holds.bits i]
  rfl

theorem lowestset_holds {bitsize : Nat} {bits : List UInt8} {members : Finset Nat}
    (holds : Holds bitsize bits members) :
    (members.Nonempty → IsLeast members (cprLowestset (some bits) bitsize)) ∧
    (members = ∅ → cprLowestset (some bits) bitsize = bitsize) := by
  have here (i : Nat) : i ∈ members ↔ i < bitsize ∧ meets bit bits i = true := by
    constructor
    · intro member
      have inside := holds.below i member
      have answer : meets bit bits i = decide (i ∈ members) := meets_members holds id inside
      exact ⟨inside, answer.trans (decide_eq_true member)⟩
    · rintro ⟨inside, met⟩
      have answer : meets bit bits i = decide (i ∈ members) := meets_members holds id inside
      exact of_decide_eq_true (answer.symm.trans met)
  unfold cprLowestset
  dsimp only
  rw [holds.take]
  exact lowestLoop_isLeast shows_set here

theorem lowestclr_holds {bitsize : Nat} {bits : List UInt8} {members : Finset Nat}
    (holds : Holds bitsize bits members) :
    ((Finset.range bitsize \ members).Nonempty →
      IsLeast (Finset.range bitsize \ members : Finset Nat)
        (cprLowestclr (some bits) bitsize)) ∧
    (Finset.range bitsize \ members = ∅ → cprLowestclr (some bits) bitsize = bitsize) := by
  have here (i : Nat) : i ∈ Finset.range bitsize \ members ↔
      i < bitsize ∧ meets (fun b k => !bit b k) bits i = true := by
    rw [Finset.mem_sdiff, Finset.mem_range]
    refine and_congr_right fun inside => ?_
    rw [meets_members holds (!·) inside]
    simp
  unfold cprLowestclr
  dsimp only
  rw [holds.take]
  exact lowestLoop_isLeast shows_clear here

theorem holds_answers {bitsize : Nat} {bits : List UInt8} {members : Finset Nat}
    (holds : Holds bitsize bits members) : Answers bitsize (some bits) members := by
  have counted := bitcount_holds holds
  have set := lowestset_holds holds
  have clear := lowestclr_holds holds
  refine ⟨holds.below, fun i => ?_, counted, anybits_holds holds,
    allbits_iff holds.below counted, set.1, set.2, clear.1, clear.2⟩
  rw [bitget_some, holds.bits]

/-- `NULL` answers like the one bit set of no bits. -/
theorem null_answers : Answers 0 none ∅ where
  below := by simp
  bitget := by simp [cprBitget]
  bitcount := rfl
  anybits := by simp [cprAnybits]
  allbits := by simp [cprAllbits, cprBitcount]
  lowestset := by simp
  lowestset_none _ := rfl
  lowestclr := by simp
  lowestclr_none _ := rfl

/-! ## Runs -/

variable {ν : Type} [DecidableEq ν]

/-- The calls that make and change bit sets with names, with the outcome of `malloc`
where one is made. -/
inductive Op (ν : Type) where
  | makebits (name : ν) (malloc : Bool)
  | makemask (name bits mask : ν) (malloc : Bool)
  | foldmask (bits mask : ν)
  | bitset (name : ν) (offset : Nat)
  | bitclr (name : ν) (offset : Nat)

/-- One call.  A name without a bit set is `NULL`; a mask that has been freed gives up
its name. -/
def step (bitsize : Nat) (store : ν → BitsT) : Op ν → ν → BitsT
  | .makebits name malloc => Function.update store name (cprMakebits bitsize malloc)
  | .makemask name bits mask malloc =>
      Function.update store name (cprMakemask (store bits) (store mask) bitsize malloc)
  | .foldmask bits mask =>
      let folded := cprFoldmask (store bits) (store mask) bitsize
      let store := Function.update store bits folded.1
      if folded.2 then Function.update store mask none else store
  | .bitset name offset => Function.update store name (cprBitset (store name) offset)
  | .bitclr name offset => Function.update store name (cprBitclr (store name) offset)

/-- A new set that is the intersection of two, if there are two and it can be made. -/
def interSets (members masked : Option (Finset Nat)) (malloc : Bool) : Option (Finset Nat) :=
  match members, masked with
  | some members, some masked => if malloc then some (members ∩ masked) else none
  | _, _ => none

/-- The same calls on finite sets; `none` is no set. -/
def setStep (bitsize : Nat) (sets : ν → Option (Finset Nat)) :
    Op ν → ν → Option (Finset Nat)
  | .makebits name malloc => Function.update sets name (if malloc then some ∅ else none)
  | .makemask name bits mask malloc =>
      Function.update sets name (interSets (sets bits) (sets mask) malloc)
  | .foldmask bits mask =>
      match sets mask with
      | none => sets
      | some masked =>
          let sets := Function.update sets bits ((sets bits).map (· \ masked))
          if bitsize = 0 then sets else Function.update sets mask none
  | .bitset name offset => Function.update sets name ((sets name).map (insert offset))
  | .bitclr name offset => Function.update sets name ((sets name).map (·.erase offset))

/-- The offsets of a call are below `bitsize`. -/
def Op.inside (bitsize : Nat) : Op ν → Prop
  | .bitset _ offset | .bitclr _ offset => offset < bitsize
  | _ => True

/-- A bit set stands for a finite set; `NULL` may stand for the set of no bits. -/
def Represents (bitsize : Nat) : BitsT → Option (Finset Nat) → Prop
  | some bits, some members => Holds bitsize bits members
  | none, some members => bitsize = 0 ∧ members = ∅
  | none, none => True
  | some _, none => False

omit [DecidableEq ν] in
theorem represents_answers {bitsize : Nat} {bits : BitsT} {members : Finset Nat}
    (represents : Represents bitsize bits (some members)) : Answers bitsize bits members := by
  cases bits with
  | some bits => exact holds_answers represents
  | none =>
      obtain ⟨rfl, rfl⟩ := represents
      exact null_answers

theorem update_represents {bitsize : Nat} {store : ν → BitsT} {sets : ν → Option (Finset Nat)}
    (represents : ∀ name, Represents bitsize (store name) (sets name)) {bits : BitsT}
    {members : Option (Finset Nat)} (new : Represents bitsize bits members) (at_ name : ν) :
    Represents bitsize (Function.update store at_ bits name)
      (Function.update sets at_ members name) := by
  by_cases here : name = at_
  · subst here
    rwa [Function.update_self, Function.update_self]
  · rw [Function.update_of_ne here, Function.update_of_ne here]
    exact represents name

theorem makebits_represents (bitsize : Nat) (malloc : Bool) :
    Represents bitsize (cprMakebits bitsize malloc) (if malloc then some ∅ else none) := by
  cases malloc with
  | true => exact makebits_holds bitsize
  | false => exact trivial

theorem represents_none {bitsize : Nat} {bits : BitsT} (represents : Represents bitsize bits none) :
    bits = none := by
  cases bits with
  | none => rfl
  | some bits => exact represents.elim

/-- Only the set of no bits has no block. -/
theorem represents_some {bitsize : Nat} {bits : BitsT} {members : Finset Nat}
    (represents : Represents bitsize bits (some members)) :
    (bitsize = 0 ∧ members = ∅) ∨ ∃ block, bits = some block ∧ Holds bitsize block members := by
  cases bits with
  | none => exact .inl represents
  | some block => exact .inr ⟨block, rfl, represents⟩

theorem represents_empty {bits : BitsT} {members : Finset Nat}
    (represents : Represents 0 bits (some members)) : members = ∅ :=
  Finset.eq_empty_of_forall_notMem fun i member =>
    Nat.not_lt_zero i ((represents_answers represents).below i member)

theorem makemask_represents {bitsize : Nat} {bits mask : BitsT}
    {members masked : Option (Finset Nat)} (first : Represents bitsize bits members)
    (second : Represents bitsize mask masked) (malloc : Bool) :
    Represents bitsize (cprMakemask bits mask bitsize malloc)
      (interSets members masked malloc) := by
  cases members with
  | none =>
      rw [represents_none first]
      exact trivial
  | some members =>
      cases masked with
      | none =>
          rw [represents_none second]
          cases bits <;> exact trivial
      | some masked =>
          by_cases zero : bitsize = 0
          · subst zero
            have null : cprMakemask bits mask 0 malloc = none := by
              cases bits <;> cases mask <;> rfl
            rw [null]
            cases malloc with
            | false => exact trivial
            | true => exact ⟨rfl, by rw [represents_empty first, Finset.empty_inter]⟩
          · rcases represents_some first with ⟨empty, _⟩ | ⟨block, rfl, holds⟩
            · exact absurd empty zero
            · rcases represents_some second with ⟨empty, _⟩ | ⟨other, rfl, otherHolds⟩
              · exact absurd empty zero
              · unfold cprMakemask
                dsimp only
                rw [if_neg zero]
                cases malloc with
                | false => exact trivial
                | true => exact makemask_holds holds otherHolds

/-- A change of a block that is the same change of its set. -/
theorem map_represents {bitsize : Nat} (some_ : bitsize ≠ 0) {bits : BitsT}
    {members : Option (Finset Nat)} {f : List UInt8 → List UInt8} {g : Finset Nat → Finset Nat}
    (same : ∀ block members, Holds bitsize block members → Holds bitsize (f block) (g members))
    (represents : Represents bitsize bits members) :
    Represents bitsize (bits.map f) (members.map g) := by
  cases members with
  | none =>
      rw [represents_none represents]
      exact trivial
  | some members =>
      rcases represents_some represents with ⟨empty, _⟩ | ⟨block, rfl, holds⟩
      · exact absurd empty some_
      · exact same block members holds

theorem foldmask_represents {bitsize : Nat} {bits mask : BitsT}
    {members : Option (Finset Nat)} {masked : Finset Nat}
    (first : Represents bitsize bits members) (second : Represents bitsize mask (some masked)) :
    Represents bitsize (cprFoldmask bits mask bitsize).1 (members.map (· \ masked)) := by
  by_cases zero : bitsize = 0
  · subst zero
    have kept : (cprFoldmask bits mask 0).1 = bits := by cases mask <;> rfl
    rw [kept, represents_empty second]
    simpa using first
  · rcases represents_some second with ⟨empty, _⟩ | ⟨other, rfl, otherHolds⟩
    · exact absurd empty zero
    · have folded : (cprFoldmask bits (some other) bitsize).1 =
          bits.map fun bits => (List.range (cprBitsize bitsize)).map fun pos =>
            bits.getD pos 0 &&& ~~~other.getD pos 0 := by
        unfold cprFoldmask
        dsimp only
        rw [if_neg zero]
        cases bits <;> rfl
      rw [folded]
      exact map_represents zero (fun _ _ holds => foldmask_holds holds otherHolds) first

/-- The mask is freed unless there is none or it has no bits. -/
theorem foldmask_freed {bitsize : Nat} {mask : BitsT} (bits : BitsT) {masked : Finset Nat}
    (represents : Represents bitsize mask (some masked)) :
    (cprFoldmask bits mask bitsize).2 = decide (bitsize ≠ 0) := by
  by_cases zero : bitsize = 0
  · subst zero
    cases mask <;> rfl
  · rcases represents_some represents with ⟨empty, _⟩ | ⟨block, rfl, _⟩
    · exact absurd empty zero
    · unfold cprFoldmask
      dsimp only
      rw [if_neg zero, decide_eq_true zero]
      cases bits <;> rfl

theorem bitset_represents {bitsize : Nat} {bits : BitsT} {members : Option (Finset Nat)}
    (represents : Represents bitsize bits members) {offset : Nat} (inside : offset < bitsize) :
    Represents bitsize (cprBitset bits offset) (members.map (insert offset)) := by
  have changed : cprBitset bits offset = bits.map fun bits =>
      bits.set (offset / 8) (bits.getD (offset / 8) 0 ||| bytemask offset) := by
    cases bits <;> rfl
  rw [changed]
  exact map_represents (by omega) (fun _ _ holds => bitset_holds holds inside) represents

theorem bitclr_represents {bitsize : Nat} {bits : BitsT} {members : Option (Finset Nat)}
    (represents : Represents bitsize bits members) {offset : Nat} (inside : offset < bitsize) :
    Represents bitsize (cprBitclr bits offset) (members.map (·.erase offset)) := by
  have changed : cprBitclr bits offset = bits.map fun bits =>
      bits.set (offset / 8) (bits.getD (offset / 8) 0 &&& ~~~bytemask offset) := by
    cases bits <;> rfl
  rw [changed]
  exact map_represents (by omega) (fun _ _ holds => bitclr_holds holds inside) represents

/-- Every call does to the sets what it does to the bit sets. -/
theorem step_represents {bitsize : Nat} {store : ν → BitsT} {sets : ν → Option (Finset Nat)}
    (represents : ∀ name, Represents bitsize (store name) (sets name)) (op : Op ν)
    (inside : op.inside bitsize) (name : ν) :
    Represents bitsize (step bitsize store op name) (setStep bitsize sets op name) := by
  cases op with
  | makebits made malloc =>
      exact update_represents represents (makebits_represents bitsize malloc) made name
  | makemask made bits mask malloc =>
      exact update_represents represents
        (makemask_represents (represents bits) (represents mask) malloc) made name
  | foldmask bits mask =>
      have second := represents mask
      unfold step setStep
      dsimp only
      cases set : sets mask with
      | none =>
          rw [set] at second
          have nothing : cprFoldmask (store bits) none bitsize = (store bits, false) := rfl
          rw [represents_none second, nothing]
          dsimp only
          rw [if_neg Bool.false_ne_true, Function.update_eq_self]
          exact represents name
      | some masked =>
          rw [set] at second
          have folded := update_represents represents
            (foldmask_represents (represents bits) second) bits
          rw [foldmask_freed _ second]
          dsimp only
          by_cases zero : bitsize = 0
          · rw [if_pos zero, if_neg (by simpa using zero)]
            exact folded name
          · rw [if_neg zero, if_pos (by simpa using zero)]
            exact update_represents folded (show Represents bitsize none none from trivial) mask name
  | bitset changed offset =>
      exact update_represents represents (bitset_represents (represents changed) inside)
        changed name
  | bitclr changed offset =>
      exact update_represents represents (bitclr_represents (represents changed) inside)
        changed name

theorem run_represents {bitsize : Nat} {store : ν → BitsT} {sets : ν → Option (Finset Nat)}
    (represents : ∀ name, Represents bitsize (store name) (sets name)) (ops : List (Op ν))
    (inside : ∀ op ∈ ops, op.inside bitsize) (name : ν) :
    Represents bitsize (ops.foldl (step bitsize) store name)
      (ops.foldl (setStep bitsize) sets name) := by
  induction ops generalizing store sets with
  | nil => exact represents name
  | cons op rest ih =>
      refine ih (step_represents represents op (inside op List.mem_cons_self)) ?_
      exact fun later member => inside later (List.mem_cons_of_mem _ member)

/-- After every sequence of calls the bit sets answer for the sets that the same calls
make of finite sets, and names without a set have no bit set. -/
theorem bitset_refines (bitsize : Nat) (ops : List (Op ν))
    (inside : ∀ op ∈ ops, op.inside bitsize) (name : ν) :
    match ops.foldl (setStep bitsize) (fun _ => none) name with
    | some members => Answers bitsize (ops.foldl (step bitsize) (fun _ => none) name) members
    | none => ops.foldl (step bitsize) (fun _ => none) name = none := by
  have represents := run_represents (fun _ => show Represents bitsize none none from trivial)
    ops inside name
  cases set : ops.foldl (setStep bitsize) (fun _ => none) name with
  | none =>
      rw [set] at represents
      exact represents_none represents
  | some members =>
      rw [set] at represents
      exact represents_answers represents

/-- Eleven bits, with five of padding: a set and a mask of its last member. -/
theorem bitset_refines_eleven :
    Answers 11 (([.makebits true true, .bitset true 3, .bitset true 10, .makebits false true,
        .bitset false 10, .foldmask true false] : List (Op Bool)).foldl (step 11)
      (fun _ => none) true) (insert 10 (insert 3 ∅) \ insert 10 ∅) :=
  bitset_refines 11 [.makebits true true, .bitset true 3, .bitset true 10,
    .makebits false true, .bitset false 10, .foldmask true false] (by simp [Op.inside]) true

end CprFormal.Bitset.FiniteSet
