import CprFormal.Hexcode.Pairs

/-!
# Encoding and decoding

`cpr_hexdup` writes the text that the encoding describes; reading it back, in either
case of its letters, gives the bytes as far as there is room for them.
-/

namespace CprFormal.Hexcode.RoundTrip

open CprFormal.Hexcode.Model CprFormal.Hexcode.Pairs
open CprFormal.Library.FlatMemory CprFormal.Library.Hexadecimal
open CprFormal.Strchar.Ctype CprFormal.Strchar.Strlen

/-- A digit from `0` to `9` or from `a` to `f`. -/
def LowerDigit (c : UInt8) : Prop := 48 ≤ c ∧ c ≤ 57 ∨ 97 ≤ c ∧ c ≤ 102

/-- The first bytes are back, as many as there is room for, and no other byte has
changed. -/
structure Restores (out bin : Memory UInt8) (n size : Nat) (result : Hexload) : Prop where
  count : result.count = min size n
  stored : ∀ i, i < min size n → result.out i = bin i
  kept : ∀ i, min size n ≤ i → result.out i = out i

theorem hexdupLoop_eq (bin out : Memory UInt8) (size i put : Nat) :
    hexdupLoop bin size i put out = out.write put (encode (bin.slice i size) ++ [0]) := by
  induction size generalizing i put out with
  | zero => rfl
  | succ size ih =>
      rw [hexdupLoop, ih, Memory.slice_succ, encode_cons, hex_char_high, hex_char_low]
      rfl

theorem digit_ne_zero {v : Nat} (small : v < 16) : digit v ≠ 0 := by
  revert v
  decide +kernel

theorem encode_ne_zero {bytes : List UInt8} {c : UInt8} (member : c ∈ encode bytes) : c ≠ 0 := by
  obtain ⟨v, small, rfl⟩ := exists_digit_of_mem_encode member
  exact digit_ne_zero small

theorem encode_lower {bytes : List UInt8} {c : UInt8} (member : c ∈ encode bytes) :
    LowerDigit c := by
  obtain ⟨v, small, rfl⟩ := exists_digit_of_mem_encode member
  exact digit_lower small

/-- `cpr_hexdup` gives the digits with a terminator. -/
theorem cprHexdup_reads (block bin : Memory UInt8) (size : Nat) :
    Reads (cprHexdup block bin size) (encode (bin.slice 0 size)) := by
  unfold cprHexdup
  rw [hexdupLoop_eq]
  have written := reads_write_bytes block (encode (bin.slice 0 size))
  have whole : (encode (bin.slice 0 size)).takeWhile (· != 0) = encode (bin.slice 0 size) :=
    List.takeWhile_eq_self_iff.mpr fun c member => bne_iff_ne.mpr (encode_ne_zero member)
  rwa [whole] at written

theorem value_toupper_digit {v : Nat} (small : v < 16) : value (toupper (digit v)) = some v := by
  revert v
  decide +kernel

/-- A text that decodes to the bytes restores them. -/
theorem restores {out bin : Memory UInt8} {str : Nat → UInt8} {w : List UInt8} {n : Nat}
    (size : Nat) (reads : Reads str w) (even : w.length = 2 * n)
    (decoded : decode w = bin.slice 0 n) : Restores out bin n size (cprHexload out str size) := by
  have whole : ¬ (OddDigits w ∧ w.length < 2 * size) := by
    rintro ⟨⟨-, odd⟩, -⟩
    omega
  have length : (decode w).length = n := by
    rw [decoded, Memory.slice_length]
  obtain ⟨count, stored, kept, -⟩ := loadsPairs out reads whole
  rw [length] at count
  refine ⟨count, fun i below => ?_, fun i beyond => kept i (by omega)⟩
  have inside : i < (bin.slice 0 n).length := by
    rw [Memory.slice_length]
    omega
  have here := bin.getElem_slice 0 n i inside
  rw [Nat.zero_add] at here
  rw [stored i (by omega) (by omega), ← here]
  simp only [decoded]

/-- The text of `n` bytes has `2 * n` lower-case digits, and both the text and its
upper-case form give the bytes back. -/
theorem hex_round_trip (block bin out : Memory UInt8) (n size : Nat) :
    ∃ text, Reads (cprHexdup block bin n) text ∧ text.length = 2 * n ∧
      (∀ c ∈ text, LowerDigit c) ∧
      Restores out bin n size (cprHexload out (cprHexdup block bin n) size) ∧
      Restores out bin n size
        (cprHexload out (fun i => toupper (cprHexdup block bin n i)) size) := by
  have reads := cprHexdup_reads block bin n
  have even : (encode (bin.slice 0 n)).length = 2 * n := by
    rw [encode_length, Memory.slice_length]
  have upper : Reads (fun i => toupper (cprHexdup block bin n i))
      ((encode (bin.slice 0 n)).map toupper) := by
    refine ⟨fun i h => ?_, fun c member => ?_, ?_⟩
    · rw [List.getElem_map]
      exact congrArg toupper (reads.char i (by simpa using h))
    · obtain ⟨d, digit, rfl⟩ := List.mem_map.mp member
      exact fun zero => encode_ne_zero digit ((toupper_eq_zero d).mp zero)
    · rw [List.length_map]
      exact (toupper_eq_zero _).mpr reads.stop
  refine ⟨_, reads, even, fun c member => encode_lower member, ?_, ?_⟩
  · refine restores size reads even ?_
    have plain := decode_map_encode (f := id) (fun v small => value_digit small) (bin.slice 0 n)
    rwa [List.map_id] at plain
  · refine restores size upper (by rw [List.length_map]; exact even) ?_
    exact decode_map_encode (fun v small => value_toupper_digit small) (bin.slice 0 n)

end CprFormal.Hexcode.RoundTrip
