import CprFormal.Address.Model
import CprFormal.Library.Decimal
import CprFormal.Library.Hexadecimal
import CprFormal.Library.Joined
import Mathlib.Data.List.OfFn

/-!
# Addresses as texts

The dotted decimal form of an IPv4 address, and the eight groups of an IPv6 address in
hexadecimal.  An IPv6 address that stands for an IPv4 address has that in dotted decimal
behind `::ffff:`.  Rows of zero groups are not shortened otherwise.
-/

namespace CprFormal.Address.Presentation

open CprFormal.Address.Model
open CprFormal.Library.Decimal CprFormal.Library.Joined CprFormal.Strchar.Strlen
open CprFormal.Library.Hexadecimal (decode decode_map_encode digit_lower encode encode_length
  exists_digit_of_mem_encode value_digit)

/-- An address from exactly `n` bytes. -/
def toBytes (n : Nat) (bytes : List UInt8) : Option (Bytes n) :=
  if bytes.length = n then some fun i => bytes.getD i 0 else none

theorem toBytes_ofFn {n : Nat} (addr : Bytes n) : toBytes n (List.ofFn addr) = some addr := by
  unfold toBytes
  rw [if_pos (List.length_ofFn)]
  refine congrArg some (funext fun i => ?_)
  rw [List.getD_eq_getElem _ _ (by simp), List.getElem_ofFn]

def dotted (addr : Bytes 4) : List UInt8 :=
  [46].intercalate ((List.ofFn addr).map fun b => numeral b.toNat)

/-- A decimal below 256 without a leading zero. -/
def readPart (text : List UInt8) : Option UInt8 :=
  if readNat text < 256 ∧ numeral (readNat text) = text then some (UInt8.ofNat (readNat text))
  else none

def parseDotted (text : List UInt8) : Option (Bytes 4) :=
  ((text.splitOn 46).mapM readPart).bind (toBytes 4)

theorem readPart_numeral (b : UInt8) : readPart (numeral b.toNat) = some b := by
  unfold readPart
  rw [readNat_numeral, if_pos ⟨b.toNat_lt, rfl⟩, UInt8.ofNat_toNat]

theorem parseDotted_dotted (addr : Bytes 4) : parseDotted (dotted addr) = some addr := by
  have parts := @mapM_splitOn UInt8 UInt8 _ _ 46 (List.ofFn addr) (fun b => numeral b.toNat)
    readPart (fun b _ => readPart_numeral b)
    (fun b _ member => absurd ((numeral_numeral b.toNat).digits 46 member) (by decide))
    (List.ofFn_eq_nil_iff.not.mpr (by decide))
  unfold parseDotted dotted
  rw [parts]
  exact toBytes_ofFn addr

theorem dotted_mem (addr : Bytes 4) : ∀ c ∈ dotted addr, c = 46 ∨ 48 ≤ c ∧ c ≤ 57 := by
  refine forall_mem_intercalate (.inl rfl) fun part member c inside => .inr ?_
  obtain ⟨b, -, rfl⟩ := List.mem_map.mp member
  exact (numeral_numeral b.toNat).digits c inside

theorem dotted_length (addr : Bytes 4) : (dotted addr).length ≤ 16 := by
  refine Nat.le_trans (length_intercalate_le (k := 3) fun part member => ?_) ?_
  · obtain ⟨b, -, rfl⟩ := List.mem_map.mp member
    have short : (Nat.digits 10 b.toNat).length ≤ 3 :=
      (Nat.digits_length_le_iff (by decide) _).mpr (Nat.lt_trans b.toNat_lt (by decide))
    unfold numeral
    split
    · exact (by decide : 1 ≤ 3)
    · rwa [List.length_reverse, digits, List.length_map]
  · rw [List.length_map, List.length_ofFn]

theorem dot_mem_dotted (addr : Bytes 4) : 46 ∈ dotted addr := by
  refine separator_mem ?_
  rw [List.length_map, List.length_ofFn]
  decide

/-- Two bytes in hexadecimal, without zeros in front. -/
def writeGroup (pair : List UInt8) : List UInt8 :=
  ((encode pair).take 3).dropWhile (· == 48) ++ (encode pair).drop 3

/-- One to four digits. -/
def readGroup (text : List UInt8) : Option (List UInt8) :=
  let pair := decode (List.replicate (4 - text.length) 48 ++ text)
  if text.length ≤ 4 ∧ text ≠ [] ∧ pair.length = 2 then some pair else none

/-- Zeros in front make the four digits again. -/
theorem writeGroup_digits {pair : List UInt8} (two : pair.length = 2) :
    (writeGroup pair).length ≤ 4 ∧ writeGroup pair ≠ [] ∧
      List.replicate (4 - (writeGroup pair).length) 48 ++ writeGroup pair = encode pair := by
  have four : (encode pair).length = 4 := by
    rw [encode_length, two]
  have zeros : ((encode pair).take 3).takeWhile (· == 48) =
      List.replicate (((encode pair).take 3).takeWhile (· == 48)).length 48 :=
    List.eq_replicate_length.mpr fun c member =>
      eq_of_beq (@List.mem_takeWhile_imp _ (· == 48) _ c member)
  have whole : ((encode pair).take 3).takeWhile (· == 48) ++
      ((encode pair).take 3).dropWhile (· == 48) = (encode pair).take 3 :=
    List.takeWhile_append_dropWhile
  have first := congrArg List.length whole
  have last : ((encode pair).drop 3).length = 1 := by
    rw [List.length_drop, four]
  rw [List.length_append, List.length_take, four] at first
  have length : (writeGroup pair).length =
      4 - (((encode pair).take 3).takeWhile (· == 48)).length := by
    unfold writeGroup
    rw [List.length_append, last]
    omega
  refine ⟨by omega, List.ne_nil_of_length_pos (by omega), ?_⟩
  rw [show 4 - (writeGroup pair).length =
    (((encode pair).take 3).takeWhile (· == 48)).length by omega, ← zeros]
  unfold writeGroup
  rw [← List.append_assoc, whole, List.take_append_drop]

theorem readGroup_writeGroup {pair : List UInt8} (two : pair.length = 2) :
    readGroup (writeGroup pair) = some pair := by
  obtain ⟨short, nonempty, digits⟩ := writeGroup_digits two
  have back : decode (encode pair) = pair := by
    have mapped := decode_map_encode (f := id) (fun v small => value_digit small) pair
    rwa [List.map_id] at mapped
  unfold readGroup
  rw [digits, back]
  exact if_pos ⟨short, nonempty, two⟩

theorem writeGroup_mem {pair : List UInt8} {c : UInt8} (member : c ∈ writeGroup pair) :
    48 ≤ c ∧ c ≤ 57 ∨ 97 ≤ c ∧ c ≤ 102 := by
  have inside : c ∈ encode pair := by
    rcases List.mem_append.mp member with front | last
    · exact List.mem_of_mem_take ((List.dropWhile_sublist _).subset front)
    · exact List.mem_of_mem_drop last
  obtain ⟨v, small, rfl⟩ := exists_digit_of_mem_encode inside
  exact digit_lower small

/-- The two bytes of each group. -/
def pairs (addr : Bytes 16) : List (List UInt8) :=
  List.ofFn fun i : Fin 8 => List.ofFn fun j : Fin 2 => addr ⟨i * 2 + j, by omega⟩

def groups (addr : Bytes 16) : List UInt8 := [58].intercalate ((pairs addr).map writeGroup)

def parseGroups (text : List UInt8) : Option (Bytes 16) :=
  ((text.splitOn 58).mapM readGroup).bind fun pairs => toBytes 16 pairs.flatten

theorem pairs_length {addr : Bytes 16} : ∀ pair ∈ pairs addr, pair.length = 2 := by
  intro pair member
  obtain ⟨i, rfl⟩ := (List.mem_ofFn' _ _).mp member
  exact List.length_ofFn

theorem parseGroups_groups (addr : Bytes 16) : parseGroups (groups addr) = some addr := by
  have read := @mapM_splitOn UInt8 (List UInt8) _ _ 58 (pairs addr) writeGroup readGroup
    (fun pair member => readGroup_writeGroup (pairs_length pair member))
    (fun pair _ member => absurd (writeGroup_mem member) (by decide))
    (List.ofFn_eq_nil_iff.not.mpr (by decide))
  have whole : (pairs addr).flatten = List.ofFn addr := (List.ofFn_mul (m := 8) (n := 2) addr).symm
  unfold parseGroups groups
  rw [read, Option.bind_some, whole]
  exact toBytes_ofFn addr

theorem groups_mem (addr : Bytes 16) :
    ∀ c ∈ groups addr, c = 58 ∨ 48 ≤ c ∧ c ≤ 57 ∨ 97 ≤ c ∧ c ≤ 102 := by
  refine forall_mem_intercalate (.inl rfl) fun part member c inside => .inr ?_
  obtain ⟨pair, -, rfl⟩ := List.mem_map.mp member
  exact writeGroup_mem inside

theorem groups_length (addr : Bytes 16) : (groups addr).length ≤ 40 := by
  refine Nat.le_trans (length_intercalate_le (k := 4) fun part member => ?_) ?_
  · obtain ⟨pair, inside, rfl⟩ := List.mem_map.mp member
    exact (writeGroup_digits (pairs_length pair inside)).1
  · rw [List.length_map, pairs, List.length_ofFn]

theorem colon_mem_groups (addr : Bytes 16) : 58 ∈ groups addr := by
  refine separator_mem ?_
  rw [List.length_map, pairs, List.length_ofFn]
  decide

/-! ## IPv4 addresses in IPv6 -/

/-- The address stands for an IPv4 address. -/
def Mapped (addr : Bytes 16) : Prop :=
  (List.ofFn addr).take 12 = List.replicate 10 0 ++ [255, 255]

instance (addr : Bytes 16) : Decidable (Mapped addr) := by
  unfold Mapped
  exact inferInstance

def last4 (addr : Bytes 16) : Bytes 4 := fun i => addr ⟨12 + i, by omega⟩

/-- `::ffff:` -/
def mappedFront : List UInt8 := [58, 58, 102, 102, 102, 102, 58]

def writeAddr (addr : Bytes 16) : List UInt8 :=
  if Mapped addr then mappedFront ++ dotted (last4 addr) else groups addr

def parseAddr (text : List UInt8) : Option (Bytes 16) :=
  if text.take 7 = mappedFront then
    (parseDotted (text.drop 7)).bind fun addr =>
      toBytes 16 (List.replicate 10 0 ++ [255, 255] ++ List.ofFn addr)
  else parseGroups text

theorem groups_head (addr : Bytes 16) : (groups addr).head? ≠ some 58 := by
  unfold groups pairs
  rw [List.ofFn_succ, List.map_cons, intercalate_cons]
  · intro colon
    have two : (List.ofFn fun j : Fin 2 => addr ⟨(0 : Fin 8) * 2 + j, by omega⟩).length = 2 :=
      List.length_ofFn
    rw [List.head?_append_of_ne_nil _ (writeGroup_digits two).2.1] at colon
    exact absurd (writeGroup_mem (List.mem_of_head? colon)) (by decide)
  · exact List.map_eq_nil_iff.not.mpr (List.ofFn_eq_nil_iff.not.mpr (by decide))

theorem mapped_bytes {addr : Bytes 16} (mapped : Mapped addr) :
    List.replicate 10 0 ++ [255, 255] ++ List.ofFn (last4 addr) = List.ofFn addr := by
  rw [← mapped]
  have behind : List.ofFn (last4 addr) = (List.ofFn addr).drop 12 := rfl
  rw [behind, List.take_append_drop]

theorem parseAddr_writeAddr (addr : Bytes 16) : parseAddr (writeAddr addr) = some addr := by
  unfold writeAddr parseAddr
  by_cases mapped : Mapped addr
  · have front : (mappedFront ++ dotted (last4 addr)).take 7 = mappedFront := List.take_left' rfl
    have behind : (mappedFront ++ dotted (last4 addr)).drop 7 = dotted (last4 addr) :=
      List.drop_left' rfl
    rw [if_pos mapped, if_pos front, behind, parseDotted_dotted, Option.bind_some,
      mapped_bytes mapped]
    exact toBytes_ofFn addr
  · have other : (groups addr).take 7 ≠ mappedFront := by
      intro same
      have head := congrArg List.head? same
      rw [List.head?_take, if_neg (by decide)] at head
      exact groups_head addr head
    rw [if_neg mapped, if_neg other]
    exact parseGroups_groups addr

theorem writeAddr_mem (addr : Bytes 16) :
    ∀ c ∈ writeAddr addr, c = 46 ∨ c = 58 ∨ 48 ≤ c ∧ c ≤ 57 ∨ 97 ≤ c ∧ c ≤ 102 := by
  intro c member
  unfold writeAddr at member
  split at member
  · rcases List.mem_append.mp member with front | behind
    · have known : c = 58 ∨ c = 102 ∨ c = 58 := by simpa [mappedFront] using front
      rcases known with rfl | rfl | rfl
      · exact .inr (.inl rfl)
      · exact .inr (.inr (.inr (by decide)))
      · exact .inr (.inl rfl)
    · exact (dotted_mem _ c behind).imp_right fun digit => .inr (.inl digit)
  · exact .inr (groups_mem addr c member)

theorem dot_mem_writeAddr_iff (addr : Bytes 16) : 46 ∈ writeAddr addr ↔ Mapped addr := by
  unfold writeAddr
  by_cases mapped : Mapped addr
  · rw [if_pos mapped]
    exact iff_of_true (List.mem_append_right _ (dot_mem_dotted _)) mapped
  · rw [if_neg mapped]
    exact iff_of_false (fun dot => absurd (groups_mem addr 46 dot) (by decide)) mapped

theorem colon_mem_writeAddr (addr : Bytes 16) : 58 ∈ writeAddr addr := by
  unfold writeAddr
  split
  · exact List.mem_append_left _ List.mem_cons_self
  · exact colon_mem_groups addr

theorem writeAddr_length (addr : Bytes 16) : (writeAddr addr).length ≤ 45 := by
  unfold writeAddr
  split
  · have short := dotted_length (last4 addr)
    rw [List.length_append]
    exact Nat.add_le_add (by decide : 7 ≤ 29) short
  · exact Nat.le_trans (groups_length addr) (by decide)

/-- A C library with these conversions. -/
def libc : Libc where
  inetPton4 text := parseDotted text.bytes
  inetPton6 text := parseAddr text.bytes
  inetNtop4 addr := ⟨dotted addr, fun c member zero => by
    have shown := dotted_mem addr c member
    rw [zero] at shown
    exact absurd shown (by decide)⟩
  inetNtop6 addr := ⟨writeAddr addr, fun c member zero => by
    have shown := writeAddr_mem addr c member
    rw [zero] at shown
    exact absurd shown (by decide)⟩

end CprFormal.Address.Presentation
