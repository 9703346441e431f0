import CprFormal.Memio.Model

/-!
# Splitting a block into lines

`cpr_lgetmem` is called until it returns `NULL`, with or without `outlen` in any
mixture.  A line and its delimiter are taken from the front of the unread bytes by each
call, and the NUL that a call without `outlen` stores replaces the first byte of the
delimiter, which is consumed with it.
-/

namespace CprFormal.Memio.Splitting

open CprFormal.Library.FlatMemory
open CprFormal.Strchar.Strlen
open CprFormal.Bufio.Model
open CprFormal.Memio.Model

/-- A call that has found a line, with the block as it left it. -/
structure Piece where
  outlen : Bool
  start : Nat
  len : Nat
  after : MemioT

/-- The bytes of the line at the returned pointer. -/
def Piece.text (p : Piece) : List UInt8 := p.after.data.slice p.start p.len

/-- `cpr_lgetmem` until its first `NULL`; the number of the call decides whether the
length is asked for.  `none` stands for a loop that has used up its fuel. -/
def lgetmemAll (delim : Option Delim) (modes : Nat → Bool) :
    Nat → Nat → MemioT → Option (List Piece × MemioT)
  | 0, _, _ => none
  | fuel + 1, call, mem =>
      let line := cprLgetmem mem (modes call) delim
      match line.result with
      | none => some ([], line.mem)
      | some (start, len) =>
          (lgetmemAll delim modes fuel (call + 1) line.mem).map fun (rest, final) =>
            (⟨modes call, start, len, line.mem⟩ :: rest, final)

/-- A line is cut from the front of the unread bytes, which are otherwise as before. -/
structure Cut (d : List UInt8) (mem : MemioT) (p : Piece) : Prop where
  text : p.text = mem.data.slice mem.get p.len
  start : p.start = mem.get
  get : p.after.get = p.start + p.len + d.length
  inside : p.after.get ≤ mem.size
  size : p.after.size = mem.size
  unread : mem.unread = p.text ++ d ++ p.after.unread
  first : ∀ i < p.text.length, ¬ d <+: (p.text ++ d).drop i
  terminated : p.outlen = false → p.after.data (p.start + p.len) = 0
  others : ∀ i ≠ p.start + p.len, p.after.data i = mem.data i

/-- Only the end of the line can be stored to. -/
theorem found_others {mem after : MemioT} {outlen : Bool} {d : List UInt8} {start len : Nat}
    (found : Found mem outlen d after start len) {i : Nat} (other : i ≠ mem.get + len) :
    after.data i = mem.data i := by
  rw [found.after]
  cases outlen with
  | true => rfl
  | false => exact mem.data.set_other 0 other

theorem found_cut {mem after : MemioT} {outlen : Bool} {d : List UInt8} {start len : Nat}
    (nonempty : d ≠ []) (found : Found mem outlen d after start len) :
    Cut d mem ⟨outlen, start, len, after⟩ := by
  have positive := List.length_pos_of_ne_nil nonempty
  have others {i : Nat} (other : i ≠ mem.get + len) := found_others found other
  obtain ⟨rfl, inside, here, before, after_⟩ := found
  have get : after.get = mem.get + len + d.length := by rw [after_]
  have size : after.size = mem.size := by rw [after_]
  have text : after.data.slice mem.get len = mem.data.slice mem.get len :=
    Memory.slice_congr fun i early => others (by omega)
  have unread : after.unread =
      mem.data.slice (mem.get + len + d.length) (mem.size - (mem.get + len + d.length)) := by
    unfold MemioT.unread
    rw [get, size]
    exact Memory.slice_congr fun i _ => others (by omega)
  have line : mem.data.slice mem.get (len + d.length) = mem.data.slice mem.get len ++ d := by
    rw [Memory.slice_append, here]
  refine ⟨text, rfl, get, by rwa [get], size, ?_, ?_, ?_, fun i => others⟩
  · rw [unread]
    unfold Piece.text MemioT.unread
    dsimp only
    rw [text, ← line, mem.data.slice_split mem.get (show len + d.length ≤ mem.size - mem.get by
      omega), ← Nat.add_assoc, Nat.sub_sub, ← Nat.add_assoc]
  · unfold Piece.text
    dsimp only
    rw [text, Memory.slice_length, ← line]
    intro i early occurs
    rw [Memory.slice_drop _ _ (by omega), Memory.prefix_slice_iff _ _ (by omega)] at occurs
    exact before i early occurs
  · rintro rfl
    rw [after_]
    exact mem.data.set_same _ 0

/-- The unread bytes are the lines, each with the delimiter behind it where it first
occurs, and a rest without one.  A call alters nothing that is not consumed, and what is
consumed stays as the call left it. -/
structure Split (d : List UInt8) (mem : MemioT) (pieces : List Piece) (final : MemioT) :
    Prop where
  whole : mem.unread = (pieces.map fun p => p.text ++ d).flatten ++ final.unread
  first : ∀ p ∈ pieces, ∀ i < p.text.length, ¬ d <+: (p.text ++ d).drop i
  rest : ¬ d <:+: final.unread
  get : final.get + final.unread.length = mem.size
  size : final.size = mem.size
  terminated : ∀ p ∈ pieces, p.outlen = false → p.after.data (p.start + p.len) = 0
  untouched : ∀ p ∈ pieces, ∀ i ≥ p.after.get, p.after.data i = mem.data i
  kept : ∀ p ∈ pieces, ∀ i < p.after.get, final.data i = p.after.data i

/-- What lies before `get` is not altered, and `get` does not move back. -/
structure Behind (mem final : MemioT) : Prop where
  forward : mem.get ≤ final.get
  same : ∀ i < mem.get, final.data i = mem.data i

theorem Split.nil {d : List UInt8} {mem : MemioT} (below : mem.get ≤ mem.size)
    (rest : ¬ d <:+: mem.unread) : Split d mem [] mem where
  whole := rfl
  first := by simp
  rest := rest
  get := by
    unfold MemioT.unread
    rw [Memory.slice_length]
    omega
  size := rfl
  terminated := by simp
  untouched := by simp
  kept := by simp

/-- A line in front of the lines that follow it. -/
theorem Split.cons {d : List UInt8} {mem : MemioT} {p : Piece} (cut : Cut d mem p)
    (nonempty : d ≠ []) {pieces : List Piece} {final : MemioT}
    (behind : Behind p.after final) (split : Split d p.after pieces final)
    (later : ∀ q ∈ pieces, p.after.get ≤ q.after.get) : Split d mem (p :: pieces) final where
  whole := by
    rw [cut.unread, split.whole]
    simp
  first q member := by
    rcases List.mem_cons.mp member with rfl | rest
    · exact cut.first
    · exact split.first q rest
  rest := split.rest
  get := split.get.trans cut.size
  size := split.size.trans cut.size
  terminated q member := by
    rcases List.mem_cons.mp member with rfl | rest
    · exact cut.terminated
    · exact split.terminated q rest
  untouched q member i behind_ := by
    have positive := List.length_pos_of_ne_nil nonempty
    have get := cut.get
    rcases List.mem_cons.mp member with rfl | rest
    · exact cut.others i (by omega)
    · have passed := later q rest
      rw [split.untouched q rest i behind_]
      exact cut.others i (by omega)
  kept q member i early := by
    rcases List.mem_cons.mp member with rfl | rest
    · exact behind.same i early
    · exact split.kept q rest i early

/-- Every line takes at least its delimiter, so enough fuel is as much as there are
unread bytes. -/
theorem lgetmemAll_split (delim : Option Delim) (modes : Nat → Bool) {fuel : Nat} (call : Nat)
    {mem : MemioT} (below : mem.get ≤ mem.size) (enough : mem.size - mem.get < fuel) :
    ∃ pieces final, lgetmemAll delim modes fuel call mem = some (pieces, final) ∧
      Split (delimBytes (delimText delim)) mem pieces final ∧ Behind mem final ∧
      ∀ p ∈ pieces, mem.get ≤ p.after.get := by
  induction fuel generalizing call mem with
  | zero => exact absurd enough (Nat.not_lt_zero _)
  | succ fuel ih =>
      unfold lgetmemAll
      dsimp only
      cases result : (cprLgetmem mem (modes call) delim).result with
      | none =>
          refine ⟨[], mem, ?_, .nil below ?_, ⟨Nat.le_refl _, fun _ _ => rfl⟩, by simp⟩
          · dsimp only
            rw [lgetmem_none result]
          · exact (lgetmem_none_iff mem (modes call) delim).mp result
      | some line =>
          obtain ⟨start, len⟩ := line
          have nonempty := delimBytes_ne_nil delim
          have positive := List.length_pos_of_ne_nil nonempty
          have cut := found_cut nonempty (lgetmem_found result)
          have start_ : start = mem.get := cut.start
          have get := cut.get
          have inside := cut.inside
          have size := cut.size
          have others := cut.others
          dsimp only at get inside size others
          obtain ⟨pieces, final, rest, split, behind, later⟩ :=
            ih (call + 1) (show _ ≤ (cprLgetmem mem (modes call) delim).mem.size by omega)
              (by omega)
          refine ⟨_, final, ?_, .cons cut nonempty behind split later, ⟨?_, ?_⟩, ?_⟩
          · dsimp only
            rw [rest]
            rfl
          · have forward := behind.forward
            omega
          · intro i early
            rw [behind.same i (by omega)]
            exact others i (by omega)
          · intro q member
            rcases List.mem_cons.mp member with rfl | tail
            · dsimp only
              omega
            · have passed := later q tail
              omega

/-- `cpr_lgetmem` splits the unread bytes of every block into lines: called again and
again, in any mixture of its two modes, it comes to `NULL`. -/
theorem lgetmem_splits (mem : MemioT) (below : mem.get ≤ mem.size) (delim : Delim)
    (modes : Nat → Bool) :
    ∃ fuel pieces final, lgetmemAll (some delim) modes fuel 0 mem = some (pieces, final) ∧
      Split (delim.text.bytes.take 16) mem pieces final := by
  obtain ⟨pieces, final, ended, split, _⟩ :=
    lgetmemAll_split (some delim) modes 0 below (Nat.lt_succ_self _)
  rw [delimText, delimBytes_take] at split
  exact ⟨_, pieces, final, ended, split⟩

/-- Two lines behind delimiters that overlap, the second one ended by a NUL. -/
theorem lgetmem_splits_two :
    ∃ fuel pieces final,
      lgetmemAll (some ⟨⟨[46, 46], by simp⟩, by simp⟩) (fun call => call = 0) fuel 0
        (cprInitmem (fun i => [97, 46, 46, 46, 98, 46, 46, 99].getD i 0) 8) =
          some (pieces, final) ∧
      Split (List.take 16 [46, 46])
        (cprInitmem (fun i => [97, 46, 46, 46, 98, 46, 46, 99].getD i 0) 8) pieces final :=
  lgetmem_splits (cprInitmem (fun i => [97, 46, 46, 46, 98, 46, 46, 99].getD i 0) 8)
    (by decide) ⟨⟨[46, 46], by simp⟩, by simp⟩ (fun call => call = 0)

end CprFormal.Memio.Splitting
