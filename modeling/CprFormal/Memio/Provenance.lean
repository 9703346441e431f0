import CprFormal.Memio.Texts

/-!
# What a `memio_t` gives back

The readers of a `memio_t` look at `size` and not at `put`, because they also read a
block that `cpr_initmem` was given full.  So a buffer that `cpr_makemem` has made gives
back what was put into it exactly as long as its user does not read past `put`.
-/

namespace CprFormal.Memio.Provenance

open CprFormal.Library CprFormal.Library.FlatMemory CprFormal.Library.Transition
open CprFormal.Strchar.Strlen
open CprFormal.Bufio.Model
open CprFormal.Memio.Model CprFormal.Memio.Cursors CprFormal.Memio.Texts

/-- The calls on a `memio_t`; `cpr_lgetmem` is given an `outlen`. -/
inductive Call where
  | cgetmem
  | xgetmem (size : UInt64)
  | lgetmem (delim : Option Delim)
  | cputmem (ch : UInt8)
  | xputmem (from_ : Option (Memory UInt8)) (size : UInt64)
  | sputmem (text : Option CString)
  | resetmem

/-- What a call leaves. -/
def next (mem : MemioT) : Call → MemioT
  | .cgetmem => (cprCgetmem mem).1
  | .xgetmem size => (cprXgetmem mem size).1
  | .lgetmem delim => (cprLgetmem mem true delim).mem
  | .cputmem ch => (cprCputmem mem ch).1
  | .xputmem from_ size => (cprXputmem mem from_ size).1
  | .sputmem text => (cprSputmem mem text).1
  | .resetmem => cprResetmem mem

/-- The bytes that a successful get hands out; a line comes with its delimiter. -/
def takes (mem : MemioT) : Call → List UInt8
  | .cgetmem => if mem.get ≥ mem.size then [] else [(cprCgetmem mem).2]
  | .xgetmem size =>
      match (cprXgetmem mem size).2 with
      | none => []
      | some address => mem.data.slice address size.toNat
  | .lgetmem delim =>
      match (cprLgetmem mem true delim).result with
      | none => []
      | some (start, len) => mem.data.slice start (len + (delimBytes (delimText delim)).length)
  | _ => []

/-- The bytes that a successful put stores. -/
def stores (mem : MemioT) : Call → List UInt8
  | .cputmem ch => if (cprCputmem mem ch).2 then [ch] else []
  | .xputmem from_ size =>
      match from_ with
      | none => []
      | some src => if (cprXputmem mem from_ size).2 then src.slice 0 size.toNat else []
  | .sputmem text =>
      match text with
      | none => []
      | some text => if (cprSputmem mem (some text)).2 then counted mem text else []
  | _ => []

/-- A `memio_t`, and the bytes stored and consumed since it was made or reset. -/
structure History where
  mem : MemioT
  stored : List UInt8
  consumed : List UInt8

def step (s : History) (call : Call) : History :=
  match call with
  | .resetmem => ⟨next s.mem call, [], []⟩
  | _ => ⟨next s.mem call, s.stored ++ stores s.mem call, s.consumed ++ takes s.mem call⟩

/-- What was consumed is the beginning of what was stored. -/
def Returns (s : History) : Prop := s.consumed <+: s.stored

/-- A get that hands out bytes ends at or before `put`. -/
def Within (s : History) (call : Call) : Prop :=
  takes s.mem call ≠ [] → s.mem.get + (takes s.mem call).length ≤ s.mem.put

/-- A call other than a reset takes bytes from `get` on, whether they were put or not, or
stores bytes at `put`. -/
inductive Effect (mem : MemioT) (call : Call) : Prop where
  | get (n : Nat) (taken : takes mem call = mem.data.slice mem.get n)
      (stored : stores mem call = [])
      (next : mem.get + n < 2 ^ 64 → next mem call = { mem with get := mem.get + n })
  | put (bytes : List UInt8) (taken : takes mem call = []) (stored : stores mem call = bytes)
      (room : mem.put + bytes.length ≤ mem.size)
      (next : next mem call =
        { mem with data := mem.data.write mem.put bytes, put := mem.put + bytes.length })

/-- A failed call has no effect. -/
theorem Effect.nothing {mem : MemioT} {call : Call} (taken : takes mem call = [])
    (stored : stores mem call = []) (same : next mem call = mem) : Effect mem call :=
  .get 0 taken stored fun _ => same

theorem cgetmem_effect (mem : MemioT) : Effect mem .cgetmem := by
  by_cases finished : mem.get ≥ mem.size
  · refine .nothing (if_pos finished) rfl ?_
    simp only [next, cprCgetmem, if_pos finished]
  · refine .get 1 ?_ rfl fun _ => ?_
    · simp only [takes, cprCgetmem, if_neg finished]
      rfl
    · simp only [next, cprCgetmem, if_neg finished]

theorem xgetmem_effect (mem : MemioT) (size : UInt64) : Effect mem (.xgetmem size) := by
  by_cases outside : SizeT.wrap (mem.get + size.toNat) > mem.size
  · refine .nothing ?_ rfl ?_
    · simp only [takes, cprXgetmem, if_pos outside]
    · simp only [next, cprXgetmem, if_pos outside]
  · refine .get size.toNat ?_ rfl fun small => ?_
    · simp only [takes, cprXgetmem, if_neg outside]
    · rw [SizeT.wrap_of_lt small] at outside
      simp only [next, xgetmem_exact small, if_neg outside]

theorem lgetmem_effect (mem : MemioT) (delim : Option Delim) : Effect mem (.lgetmem delim) := by
  cases result : (cprLgetmem mem true delim).result with
  | none =>
      refine .nothing ?_ rfl (lgetmem_none result)
      simp only [takes, result]
  | some line =>
      obtain ⟨start, len⟩ := line
      obtain ⟨rfl, _, _, _, after⟩ := lgetmem_found result
      refine .get (len + (delimBytes (delimText delim)).length) ?_ rfl fun _ => ?_
      · simp only [takes, result]
      · change (cprLgetmem mem true delim).mem = _
        rw [after, if_pos rfl, Nat.add_assoc]

theorem cputmem_effect (mem : MemioT) (ch : UInt8) : Effect mem (.cputmem ch) := by
  by_cases full : mem.put ≥ mem.size
  · refine .nothing rfl ?_ ?_
    · simp [stores, cprCputmem, full]
    · simp only [next, cprCputmem, if_pos full]
  · refine .put [ch] rfl ?_ (Nat.lt_of_not_le full) ?_
    · simp [stores, cprCputmem, full]
    · simp only [next, cprCputmem, if_neg full]
      rfl

theorem xputmem_effect {mem : MemioT} (below : mem.put ≤ mem.size) (word : mem.size < 2 ^ 64)
    (from_ : Option (Memory UInt8)) (size : UInt64) : Effect mem (.xputmem from_ size) := by
  have exact_ := xputmem_exact below word from_ size
  cases from_ with
  | none => exact .nothing rfl rfl (congrArg Prod.fst exact_)
  | some src =>
      dsimp only at exact_
      by_cases room : mem.put + size.toNat ≤ mem.size
      · rw [if_pos room] at exact_
        have length : (src.slice 0 size.toNat).length = size.toNat := Memory.slice_length ..
        refine .put (src.slice 0 size.toNat) rfl ?_ (by rwa [length]) ?_
        · simp only [stores, exact_, if_true]
        · rw [length]
          exact congrArg Prod.fst exact_
      · rw [if_neg room] at exact_
        refine .nothing rfl ?_ (congrArg Prod.fst exact_)
        simp only [stores, exact_, Bool.false_eq_true, if_false]

theorem sputmem_effect {mem : MemioT} (below : mem.put ≤ mem.size) (word : mem.size < 2 ^ 64)
    (text : Option CString) : Effect mem (.sputmem text) := by
  cases text with
  | none => exact .nothing rfl rfl rfl
  | some text =>
      by_cases nonempty : text.bytes = []
      · have refused : cprSputmem mem (some text) = (mem, false) := by
          simp [cprSputmem, CString.char, nonempty]
        refine .nothing rfl ?_ (congrArg Prod.fst refused)
        simp only [stores, refused, Bool.false_eq_true, if_false]
      · have exact_ := sputmem_exact below word nonempty
        by_cases room : mem.put + (counted mem text).length ≤ mem.size
        · rw [if_pos room] at exact_
          refine .put (counted mem text) rfl ?_ room (congrArg Prod.fst exact_)
          simp only [stores, exact_, if_true]
        · rw [if_neg room] at exact_
          refine .nothing rfl ?_ (congrArg Prod.fst exact_)
          simp only [stores, exact_, Bool.false_eq_true, if_false]

theorem call_effect {mem : MemioT} (below : mem.put ≤ mem.size) (word : mem.size < 2 ^ 64)
    {call : Call} (kept : call ≠ .resetmem) : Effect mem call := by
  cases call with
  | cgetmem => exact cgetmem_effect mem
  | xgetmem size => exact xgetmem_effect mem size
  | lgetmem delim => exact lgetmem_effect mem delim
  | cputmem ch => exact cputmem_effect mem ch
  | xputmem from_ size => exact xputmem_effect below word from_ size
  | sputmem text => exact sputmem_effect below word text
  | resetmem => exact absurd rfl kept

/-- What was stored is in the block before `put`, and as many bytes as are before `get`
were consumed. -/
structure Kept (s : History) : Prop where
  stored : s.stored = s.mem.data.slice 0 s.mem.put
  consumed : s.consumed.length = s.mem.get
  put : s.mem.put ≤ s.mem.size
  word : s.mem.size < 2 ^ 64

/-- What was consumed lies before `get`, and `get` is not behind `put`. -/
theorem Kept.consumed_eq {s : History} (kept : Kept s) (returns : Returns s) :
    s.mem.get ≤ s.mem.put ∧ s.consumed = s.mem.data.slice 0 s.mem.get := by
  unfold Returns at returns
  have shorter := returns.length_le
  rw [kept.stored, Memory.slice_length, kept.consumed] at shorter
  rw [kept.stored, List.prefix_iff_eq_take, kept.consumed,
    Memory.slice_take _ _ shorter] at returns
  exact ⟨shorter, returns⟩

/-- A call keeps the law exactly if it is within what was put. -/
theorem step_returns {s : History} (kept : Kept s) (returns : Returns s) (call : Call) :
    (Returns (step s call) ↔ Within s call) ∧ (Within s call → Kept (step s call)) := by
  obtain ⟨ahead, consumed⟩ := kept.consumed_eq returns
  have word := kept.word
  have below := kept.put
  by_cases reset : call = .resetmem
  · subst reset
    refine ⟨⟨fun _ some_ => absurd rfl some_, fun _ => List.prefix_rfl⟩, fun _ => ?_⟩
    exact ⟨rfl, rfl, Nat.zero_le _, word⟩
  · have stepped : step s call =
        ⟨next s.mem call, s.stored ++ stores s.mem call, s.consumed ++ takes s.mem call⟩ := by
      cases call with
      | resetmem => exact absurd rfl reset
      | cgetmem | xgetmem _ | lgetmem _ | cputmem _ | xputmem _ _ | sputmem _ => rfl
    rw [stepped]
    unfold Returns Within
    cases call_effect below word reset with
    | get n taken stored next =>
        have joined : s.consumed ++ s.mem.data.slice s.mem.get n =
            s.mem.data.slice 0 (s.mem.get + n) := by
          rw [consumed, Memory.slice_append, Nat.zero_add]
        have within : (takes s.mem call ≠ [] →
            s.mem.get + (takes s.mem call).length ≤ s.mem.put) ↔ s.mem.get + n ≤ s.mem.put := by
          rw [taken, Memory.slice_length, ← List.length_pos_iff, Memory.slice_length]
          omega
        rw [within]
        refine ⟨?_, fun inside => ?_⟩
        · rw [taken, stored, List.append_nil, joined, kept.stored]
          exact Memory.slice_prefix_slice_iff _ _ _ _
        · rw [next (by omega), taken, stored, List.append_nil]
          refine ⟨kept.stored, ?_, below, word⟩
          rw [List.length_append, kept.consumed, Memory.slice_length]
    | put bytes taken stored room next =>
        refine ⟨⟨fun _ some_ => absurd taken some_, fun _ => ?_⟩, fun _ => ?_⟩
        · rw [taken, List.append_nil]
          exact returns.trans (List.prefix_append _ _)
        · rw [next, taken, stored, List.append_nil]
          refine ⟨?_, kept.consumed, room, word⟩
          dsimp only
          rw [Memory.slice_append, Nat.zero_add, Memory.slice_write,
            Memory.slice_write_outside _ _ (.inl (by omega)), kept.stored]

/-- Through every run on a buffer that `cpr_makemem` has made, what was consumed is the
beginning of what was stored exactly when no get hands out bytes past `put`. -/
theorem memory_returns_iff {size : UInt64} {malloc : Nat → Option (Memory UInt8)}
    {mem : MemioT} (made : cprMakemem size malloc = some mem) (calls : List Call) :
    Along step Returns ⟨mem, [], []⟩ calls ↔ Throughout step Within ⟨mem, [], []⟩ calls := by
  have start : Kept ⟨mem, [], []⟩ := by
    unfold cprMakemem at made
    split at made
    · cases made
    · cases made
      exact ⟨rfl, rfl, Nat.zero_le _, size.toNat_lt⟩
  exact along_iff_throughout Kept
    (fun s call kept returns within => (step_returns kept returns call).2 within)
    (fun s call kept returns => (step_returns kept returns call).1) start List.prefix_rfl calls

/-- Two bytes are put and one of them is taken back. -/
theorem memory_returns_iff_one :
    Along step Returns ⟨⟨fun _ => 7, 0, 0, 4, true⟩, [], []⟩
      [.sputmem (some ⟨[97, 98], by simp⟩), .cgetmem] :=
  (memory_returns_iff (show cprMakemem 4 (fun _ => some fun _ => 7) =
    some ⟨fun _ => 7, 0, 0, 4, true⟩ from rfl) _).mpr
    ⟨fun some_ => absurd rfl some_, fun _ => by decide, trivial⟩

/-- A fresh buffer hands out a byte that nobody has put. -/
theorem memory_returns_uninitialised :
    ¬ ∀ (size : UInt64) (malloc : Nat → Option (Memory UInt8)) (mem : MemioT),
      cprMakemem size malloc = some mem →
      ∀ calls, Along step Returns ⟨mem, [], []⟩ calls := by
  intro claimed
  have along := claimed 4 (fun _ => some fun _ => 7) ⟨fun _ => 7, 0, 0, 4, true⟩ rfl [.cgetmem]
  have returned : [(7 : UInt8)] <+: [] := along.2
  exact absurd returned (by decide)

end CprFormal.Memio.Provenance
