import CprFormal.Strchar.Strlen

/-!
# The two parts of a string

`cpr_strtail` keeps the front of a string and `cpr_strhead` what is behind it, each in
place.  When the count is not below the length, `cpr_strtail` stores a NUL at the
start, or nothing, and the length it returns is not that of what it leaves.
-/

namespace CprFormal.Strchar.Split

open CprFormal.Library.FlatMemory CprFormal.Strchar.Strlen

/-- `while (*tmp) *(str++) = *(tmp++); *str = 0;` -/
def headLoop : Nat → Nat → Nat → Memory UInt8 → Option (Memory UInt8)
  | 0, _, _, _ => none
  | fuel + 1, str, tmp, mem =>
      if mem tmp = 0 then some (mem.set str 0)
      else headLoop fuel (str + 1) (tmp + 1) (mem.set str (mem tmp))

/-- `cpr_strhead`, which takes the front off; `none` is a copy that has used up its
fuel. -/
def cprStrhead (mem : Memory UInt8) (limit count fuel : Nat) : Option (Memory UInt8 × Nat) :=
  let len := cprStrlen mem limit
  if count ≥ len then some (mem.set 0 0, 0)
  else (headLoop fuel 0 count mem).map fun mem => (mem, len - count)

/-- `cpr_strtail`, which takes off what is behind the front. -/
def cprStrtail (mem : Memory UInt8) (limit count : Nat) : Memory UInt8 × Nat :=
  let len := cprStrlen mem limit
  if count ≥ limit then (mem, 0)
  else if count ≥ len then (mem.set 0 0, len)
  else (mem.set count 0, count)

/-- `front` is in memory and its length is returned. -/
structure Leaves (result : Memory UInt8 × Nat) (part : List UInt8) : Prop where
  reads : Reads result.1 part
  length : result.2 = part.length

/-- The two functions leave the two parts of the text, which are together the text. -/
structure Splits (mem : Memory UInt8) (w : List UInt8) (limit count : Nat) : Prop where
  tail : Leaves (cprStrtail mem limit count) (w.take (min count w.length))
  head : ∀ fuel, w.length < fuel →
    ∃ result, cprStrhead mem limit count fuel = some result ∧ Leaves result (w.drop count) ∧
      ∀ front back, Reads (cprStrtail mem limit count).1 front → Reads result.1 back →
        front ++ back = w

theorem headLoop_spec {fuel str tmp : Nat} {mem : Memory UInt8} {w : List UInt8}
    (reads : Reads (fun j => mem (tmp + j)) w) (behind : str ≤ tmp) (enough : w.length < fuel) :
    ∃ mem', headLoop fuel str tmp mem = some mem' ∧ Reads (fun j => mem' (str + j)) w ∧
      ∀ i, i < str → mem' i = mem i := by
  induction w generalizing fuel str tmp mem with
  | nil =>
      obtain ⟨fuel, rfl⟩ := Nat.exists_eq_add_one.mpr enough
      have ends : mem tmp = 0 := reads.stop
      refine ⟨mem.set str 0, if_pos ends, ⟨nofun, nofun, mem.set_same str 0⟩, fun i before => ?_⟩
      exact mem.set_other 0 (Nat.ne_of_lt before)
  | cons a w ih =>
      obtain ⟨fuel, rfl⟩ := Nat.exists_eq_add_one.mpr (Nat.zero_lt_of_lt enough)
      have here : mem tmp = a := reads.char 0 (Nat.zero_lt_succ _)
      have charged : a ≠ 0 := reads.nonNul a List.mem_cons_self
      obtain ⟨mem', moved, text, kept⟩ := ih
        (reads.tail.set_before (Nat.lt_succ_of_le behind) a) (Nat.succ_le_succ behind)
        (Nat.lt_of_succ_lt_succ enough)
      have first : mem' str = a := (kept str (Nat.lt_succ_self str)).trans (mem.set_same str a)
      refine ⟨mem', ?_, Reads.cons first charged text, fun i before => ?_⟩
      · rw [headLoop, here, if_neg charged]
        exact moved
      · rw [kept i (Nat.lt_succ_of_lt before)]
        exact mem.set_other a (Nat.ne_of_lt before)

section Parts

variable {mem : Memory UInt8} {w : List UInt8} {limit count : Nat}

theorem strlen_of_lt (reads : Reads mem w) (short : w.length < limit) :
    cprStrlen mem limit = w.length := by
  rw [reads.strlen]
  omega

theorem reads_set_zero (mem : Memory UInt8) : Reads (mem.set 0 0) [] :=
  ⟨nofun, nofun, mem.set_same 0 0⟩

/-- `cpr_strhead` leaves what is behind the front. -/
theorem cprStrhead_leaves (reads : Reads mem w) (short : w.length < limit) {fuel : Nat}
    (enough : w.length < fuel) :
    ∃ result, cprStrhead mem limit count fuel = some result ∧ Leaves result (w.drop count) := by
  unfold cprStrhead
  rw [strlen_of_lt reads short]
  by_cases all : count ≥ w.length
  · rw [if_pos all, List.drop_eq_nil_of_le all]
    exact ⟨_, rfl, reads_set_zero mem, rfl⟩
  · have inside : count ≤ w.length := Nat.le_of_not_le all
    have rest := reads.drop inside
    obtain ⟨mem', moved, text, -⟩ := @headLoop_spec fuel 0 count mem _ rest (Nat.zero_le _)
      (by rw [List.length_drop]; omega)
    rw [if_neg all, moved]
    refine ⟨_, rfl, reads_zero_add.mp text, ?_⟩
    exact (List.length_drop).symm

/-- `cpr_strtail` leaves the front when there is something behind it. -/
theorem cprStrtail_leaves (reads : Reads mem w) (short : w.length < limit)
    (inside : count < w.length) : Leaves (cprStrtail mem limit count) (w.take count) := by
  unfold cprStrtail
  rw [strlen_of_lt reads short, if_neg (by omega), if_neg (by omega)]
  refine ⟨reads.cut (Nat.le_of_lt inside), ?_⟩
  exact (List.length_take_of_le (Nat.le_of_lt inside)).symm

/-- From the length on, `cpr_strtail` leaves nothing or returns nothing. -/
theorem cprStrtail_whole (reads : Reads mem w) (short : w.length < limit)
    (beyond : w.length ≤ count) :
    (Reads (cprStrtail mem limit count).1 [] ∧ (cprStrtail mem limit count).2 = w.length) ∨
      (cprStrtail mem limit count).1 = mem ∧ (cprStrtail mem limit count).2 = 0 := by
  unfold cprStrtail
  rw [strlen_of_lt reads short]
  by_cases large : count ≥ limit
  · rw [if_pos large]
    exact .inr ⟨rfl, rfl⟩
  · rw [if_neg large, if_pos beyond]
    exact .inl ⟨reads_set_zero mem, rfl⟩

/-- The parts are right when the front is shorter than the text, or the text is empty. -/
theorem splits_iff (reads : Reads mem w) (short : w.length < limit) :
    Splits mem w limit count ↔ count < w.length ∨ w = [] := by
  constructor
  · intro splits
    refine Decidable.or_iff_not_imp_left.mpr fun beyond => ?_
    have all : w.length ≤ count := Nat.le_of_not_lt beyond
    have front := splits.tail
    rw [Nat.min_eq_right all, List.take_length] at front
    rcases cprStrtail_whole reads short all with ⟨empty, _⟩ | ⟨_, zero⟩
    · exact front.reads.unique empty
    · exact List.length_eq_zero_iff.mp (front.length.symm.trans zero)
  · intro either
    have front : Leaves (cprStrtail mem limit count) (w.take count) := by
      rcases either with inside | empty
      · exact cprStrtail_leaves reads short inside
      · subst empty
        rw [List.take_nil]
        rcases cprStrtail_whole reads short (Nat.zero_le count) with both | ⟨same, zero⟩
        · exact ⟨both.1, both.2⟩
        · refine ⟨?_, zero⟩
          rw [same]
          exact reads
    have capped : w.take (min count w.length) = w.take count := by
      rw [← List.take_take, List.take_length]
    refine ⟨capped ▸ front, fun fuel enough => ?_⟩
    obtain ⟨result, done, back⟩ := cprStrhead_leaves reads short enough
    refine ⟨result, done, back, fun first second hfirst hsecond => ?_⟩
    rw [hfirst.unique front.reads, hsecond.unique back.reads, List.take_append_drop]

end Parts

/-- `ab` cut behind its first character. -/
theorem splits_ab :
    Splits (CString.char ⟨[97, 98], by simp⟩) [97, 98] 3 1 ↔
      1 < ([97, 98] : List UInt8).length ∨ ([97, 98] : List UInt8) = [] :=
  splits_iff (CString.reads ⟨[97, 98], by simp⟩) (show 2 < 3 by decide)

/-- All of `ab` is to be kept; the string is emptied and its length returned. -/
theorem cprStrtail_all :
    (cprStrtail (CString.char ⟨[97, 98], by simp⟩) 3 2).1 0 = 0 ∧
      (cprStrtail (CString.char ⟨[97, 98], by simp⟩) 3 2).2 = 2 ∧
      ¬ Splits (CString.char ⟨[97, 98], by simp⟩) [97, 98] 3 2 := by
  refine ⟨by decide, by decide, fun splits => ?_⟩
  have first := splits.tail.reads.char 0 (by decide)
  revert first
  decide

end CprFormal.Strchar.Split
