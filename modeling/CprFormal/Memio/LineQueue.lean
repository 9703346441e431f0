import CprFormal.Library.Occurrence
import CprFormal.Memio.Cursors
import CprFormal.Memio.Splitting
import CprFormal.Memio.StreamLines

/-!
# A block as a queue of lines

One side puts whole lines, each with the delimiter behind it, by `cpr_xputmem` or
formatted by `cpr_fmtmem`; the other side takes lines by `cpr_lgetmem`, with or
without `outlen`.  The bytes between `get` and `put` are the lines that wait.  A
`cpr_fmtmem` that fails may have written behind `put`, and `cpr_lgetmem` without
`outlen` writes before `get`; neither touches a line that waits.
-/

namespace CprFormal.Memio.LineQueue

open CprFormal.Library CprFormal.Library.FlatMemory CprFormal.Library.Occurrence
open CprFormal.Library.Transition
open CprFormal.Strchar.Strlen
open CprFormal.Bufio.Model
open CprFormal.Memio.Model CprFormal.Memio.Cursors CprFormal.Memio.Splitting
open CprFormal.Memio.StreamLines

/-- What `vsnprintf` makes of its format: a text whose length is an `int`, or an error,
which may leave any bytes in the destination. -/
inductive Printed where
  | text (s : CString) (small : s.length < 2 ^ 31)
  | error (left : List UInt8)

/-- `vsnprintf(&data[dst], size, fmt, ap)` with a `size` that is not 0. -/
def vsnprintf (data : Memory UInt8) (dst size : Nat) : Printed → Memory UInt8 × Int
  | .text s _ => (data.write dst (s.bytes.take (size - 1) ++ [0]), s.length)
  | .error left => (data.write dst (left.take size), -1)

/-- `cpr_fmtmem`; a null format is `none`. -/
def cprFmtmem (mem : MemioT) (estimated : UInt64) (fmt : Option Printed) : MemioT × Bool :=
  match fmt with
  | none => (mem, false)
  | some printed =>
      if estimated = 0 ∨ estimated.toNat > mem.size then (mem, false)
      else if SizeT.wrap (mem.put + estimated.toNat) > mem.size then (mem, false)
      else
        let (data, n) := vsnprintf mem.data mem.put estimated.toNat printed
        if n < 0 ∨ n.toNat ≥ estimated.toNat then ({ mem with data := data }, false)
        else ({ mem with data := data, put := SizeT.wrap (mem.put + n.toNat) }, true)

/-- What a formatted put leaves: the block as it was up to `put` and outside of
`estimated` bytes from there, and the text at `put` when it is accepted. -/
structure Formatted (mem : MemioT) (estimated : UInt64) (printed : Printed)
    (after : MemioT × Bool) : Prop where
  same : mem.data.SameOutside after.1.data mem.put mem.size
  get : after.1.get = mem.get
  size : after.1.size = mem.size
  refused : after.2 = false → after.1.put = mem.put
  accepted : after.2 = true → ∃ s small, printed = .text s small ∧
    s.length < estimated.toNat ∧ after.1.put = mem.put + s.length ∧
    mem.put + s.length ≤ mem.size ∧ after.1.data.slice mem.put s.length = s.bytes

theorem vsnprintf_same (data : Memory UInt8) {dst size hi : Nat} (positive : 0 < size)
    (inside : dst + size ≤ hi) (printed : Printed) :
    data.SameOutside (vsnprintf data dst size printed).1 dst hi := by
  cases printed with
  | text s small =>
      refine Memory.sameOutside_write _ _ (Nat.le_refl _) ?_
      rw [List.length_append, List.length_take, List.length_singleton]
      omega
  | error left =>
      refine Memory.sameOutside_write _ _ (Nat.le_refl _) ?_
      rw [List.length_take]
      omega

theorem fmtmem_formatted {mem : MemioT} (bounded : Bounded mem) (estimated : UInt64)
    (printed : Printed) :
    Formatted mem estimated printed (cprFmtmem mem estimated (some printed)) := by
  have nothing : Formatted mem estimated printed (mem, false) :=
    ⟨.refl _ _ _, rfl, rfl, fun _ => rfl, fun ok => by cases ok⟩
  have below := bounded.put
  have limit := bounded.size
  unfold cprFmtmem
  dsimp only
  split
  · exact nothing
  · rename_i asked
    split
    · exact nothing
    · rename_i room
      rw [not_or] at asked
      have positive : 0 < estimated.toNat := by
        rw [Nat.pos_iff_ne_zero, Ne, ← UInt64.toNat_zero, UInt64.toNat_inj]
        exact asked.1
      rw [SizeT.wrap_of_lt (by omega)] at room
      have same := vsnprintf_same mem.data positive (Nat.le_of_not_lt room) printed
      split
      · exact ⟨same, rfl, rfl, fun _ => rfl, fun ok => by cases ok⟩
      · rename_i fits
        refine ⟨same, rfl, rfl, fun refused => (by cases refused), fun _ => ?_⟩
        cases printed with
        | error left => exact absurd (.inl (show (-1 : Int) < 0 by decide)) fits
        | text s small =>
            have short : s.length < estimated.toNat := by
              simp only [vsnprintf, not_or, Int.toNat_natCast] at fits
              omega
            have whole : s.bytes.take (estimated.toNat - 1) = s.bytes :=
              List.take_of_length_le (show s.length ≤ _ by omega)
            refine ⟨s, small, rfl, short, ?_, by omega, ?_⟩
            · simp only [vsnprintf, Int.toNat_natCast]
              exact SizeT.wrap_of_lt (by omega)
            · simp only [vsnprintf, whole]
              have cut := Memory.slice_write_take mem.data mem.put (s.bytes ++ [0])
                (show s.length ≤ _ by simp [CString.length])
              rwa [List.take_left' (show s.bytes.length = s.length from rfl)] at cut

/-- The delimiter behind a line is its first one. -/
def Framed (d line : List UInt8) : Prop := ∀ i < line.length, ¬ Occurs d (line ++ d) i

instance (d line : List UInt8) : Decidable (Framed d line) :=
  inferInstanceAs (Decidable (∀ i < line.length, ¬ d <+: (line ++ d).drop i))

/-- The bytes put and not yet taken. -/
def waiting (mem : MemioT) : List UInt8 := mem.data.slice mem.get (mem.put - mem.get)

/-- When a line with its delimiter is in front, `cpr_lgetmem` takes it. -/
theorem lgetmem_front {mem : MemioT} (outlen : Bool) {delim : Option Delim}
    {line rest : List UInt8} (behind : mem.get ≤ mem.put) (below : mem.put ≤ mem.size)
    (framed : Framed (delimBytes (delimText delim)) line)
    (front : waiting mem = line ++ delimBytes (delimText delim) ++ rest) :
    (cprLgetmem mem outlen delim).result = some (mem.get, line.length) ∧
    Found mem outlen (delimBytes (delimText delim)) (cprLgetmem mem outlen delim).mem
      mem.get line.length := by
  have missing := lgetmem_none_iff mem outlen delim
  have lengths := congrArg List.length front
  simp only [waiting, Memory.slice_length, List.length_append] at lengths
  -- The line and its delimiter, as they lie in the block.
  have held : mem.data.slice mem.get (line.length + (delimBytes (delimText delim)).length) =
      line ++ delimBytes (delimText delim) := by
    have cut := congrArg (List.take (line ++ delimBytes (delimText delim)).length) front
    rw [List.take_left, List.length_append] at cut
    rwa [waiting, Memory.slice_take _ _ (by omega)] at cut
  have here : mem.data.slice (mem.get + line.length) (delimBytes (delimText delim)).length =
      delimBytes (delimText delim) := by
    rw [Memory.slice_append] at held
    exact (List.append_inj held (Memory.slice_length _ _ _)).2
  cases result : (cprLgetmem mem outlen delim).result with
  | none =>
      refine absurd ?_ (missing.mp result)
      exact (Memory.infix_slice_iff _ _ _ _).mpr ⟨line.length, by omega, here⟩
  | some found =>
      obtain ⟨start, len⟩ := found
      have found := lgetmem_found result
      have start_ := found.start
      subst start_
      have same : len = line.length := by
        rcases Nat.lt_trichotomy len line.length with early | same | late
        · refine absurd ?_ (framed len early)
          rw [← held]
          exact (occurs_slice (by omega)).mpr found.here
        · exact same
        · exact absurd here (found.before line.length late)
      subst same
      exact ⟨rfl, found⟩

/-! ## The protocol -/

/-- A put of a line, a formatted put of one or of anything that fails, or a get. -/
inductive Call where
  | put (line : List UInt8)
  | fmt (estimated : UInt64) (line : List UInt8) (text : CString) (small : text.length < 2 ^ 31)
  | fmtError (estimated : UInt64) (left : List UInt8)
  | get (outlen : Bool)

/-- The block with the lines accepted by puts and those handed out by gets so far. -/
structure History where
  mem : MemioT
  accepted : List (List UInt8)
  taken : List (List UInt8)

/-- One call with the delimiter that both sides use. -/
def step (delim : Option Delim) (s : History) : Call → History
  | .put line =>
      let bytes := line ++ delimBytes (delimText delim)
      let (mem, ok) := cprXputmem s.mem (some (blockOf bytes)) (UInt64.ofNat bytes.length)
      ⟨mem, if ok then s.accepted ++ [line] else s.accepted, s.taken⟩
  | .fmt estimated line text small =>
      let (mem, ok) := cprFmtmem s.mem estimated (some (.text text small))
      ⟨mem, if ok then s.accepted ++ [line] else s.accepted, s.taken⟩
  | .fmtError estimated left =>
      let (mem, ok) := cprFmtmem s.mem estimated (some (.error left))
      ⟨mem, if ok then s.accepted ++ [left] else s.accepted, s.taken⟩
  | .get outlen =>
      let line := cprLgetmem s.mem outlen delim
      match line.result with
      | none => s
      | some (start, len) => ⟨line.mem, s.accepted, s.taken ++ [line.mem.data.slice start len]⟩

/-- What is put is a line with its delimiter, and a get finds a line waiting. -/
def Allowed (delim : Option Delim) (s : History) : Call → Prop
  | .put line =>
      Framed (delimBytes (delimText delim)) line ∧
        (line ++ delimBytes (delimText delim)).length < 2 ^ 64
  | .fmt _ line text _ =>
      Framed (delimBytes (delimText delim)) line ∧
        text.bytes = line ++ delimBytes (delimText delim)
  | .fmtError _ _ => True
  | .get _ => s.taken.length < s.accepted.length

/-- The number of gets. -/
def gets (calls : List Call) : Nat :=
  calls.countP fun
    | .get _ => true
    | _ => false

/-- The lines that wait are the accepted ones that have not been taken, and nothing
outside of the block `first` has changed. -/
structure Inv (delim : Option Delim) (first : MemioT) (s : History) : Prop where
  bounded : Bounded s.mem
  behind : s.mem.get ≤ s.mem.put
  taken : s.taken <+: s.accepted
  framed : ∀ line ∈ s.accepted, Framed (delimBytes (delimText delim)) line
  waits : waiting s.mem =
    ((s.accepted.drop s.taken.length).map (· ++ delimBytes (delimText delim))).flatten
  size : s.mem.size = first.size
  outside : ∀ i, first.size ≤ i → s.mem.data i = first.data i

variable {delim : Option Delim} {first : MemioT} {s : History}

/-- A put that is refused leaves the lines that wait alone. -/
theorem refused_inv (inv : Inv delim first s) {mem : MemioT}
    (same : s.mem.data.SameOutside mem.data s.mem.put s.mem.size) (get : mem.get = s.mem.get)
    (size : mem.size = s.mem.size) (put : mem.put = s.mem.put) :
    Inv delim first ⟨mem, s.accepted, s.taken⟩ where
  bounded := ⟨by rw [get, size]; exact inv.bounded.get, by rw [put, size]; exact inv.bounded.put,
    by rw [size]; exact inv.bounded.size⟩
  behind := by
    rw [get, put]
    exact inv.behind
  taken := inv.taken
  framed := inv.framed
  waits := by
    have behind := inv.behind
    have kept := same.slice (a := s.mem.get) (n := s.mem.put - s.mem.get) (.inl (by omega))
    rw [← inv.waits, waiting, waiting, get, put, kept]
  size := size.trans inv.size
  outside i beyond := by
    rw [same i (.inr (inv.size ▸ beyond))]
    exact inv.outside i beyond

/-- A put that is accepted appends its line to those that wait. -/
theorem accepted_inv (inv : Inv delim first s) {mem : MemioT} {line bytes : List UInt8}
    (framed : Framed (delimBytes (delimText delim)) line)
    (whole : bytes = line ++ delimBytes (delimText delim))
    (same : s.mem.data.SameOutside mem.data s.mem.put s.mem.size) (get : mem.get = s.mem.get)
    (size : mem.size = s.mem.size) (put : mem.put = s.mem.put + bytes.length)
    (room : s.mem.put + bytes.length ≤ s.mem.size)
    (stored : mem.data.slice s.mem.put bytes.length = bytes) :
    Inv delim first ⟨mem, s.accepted ++ [line], s.taken⟩ where
  bounded := ⟨by rw [get, size]; exact inv.bounded.get, by rw [put, size]; exact room,
    by rw [size]; exact inv.bounded.size⟩
  behind := by
    have behind := inv.behind
    dsimp only
    omega
  taken := inv.taken.trans (List.prefix_append _ _)
  framed l member := by
    rcases List.mem_append.mp member with earlier | now
    · exact inv.framed l earlier
    · rw [List.mem_singleton.mp now]
      exact framed
  waits := by
    have behind := inv.behind
    have kept := same.slice (a := s.mem.get) (n := s.mem.put - s.mem.get) (.inl (by omega))
    have length : mem.put - mem.get = (s.mem.put - s.mem.get) + bytes.length := by omega
    rw [List.drop_append_of_le_length inv.taken.length_le, List.map_append, List.flatten_append,
      ← inv.waits, waiting, waiting, length, Memory.slice_append, get, kept,
      Nat.add_sub_cancel' behind, stored, whole]
    simp
  size := size.trans inv.size
  outside i beyond := by
    rw [same i (.inr (inv.size ▸ beyond))]
    exact inv.outside i beyond

theorem blockOf_slice (bytes : List UInt8) :
    Memory.slice (blockOf bytes) 0 bytes.length = bytes :=
  initmem_unread bytes

theorem put_inv (inv : Inv delim first s) {line : List UInt8}
    (allowed : Allowed delim s (.put line)) : Inv delim first (step delim s (.put line)) := by
  obtain ⟨framed, short⟩ := allowed
  have exact_ := xputmem_exact inv.bounded.put inv.bounded.word
    (some (blockOf (line ++ delimBytes (delimText delim))))
    (UInt64.ofNat (line ++ delimBytes (delimText delim)).length)
  rw [UInt64.toNat_ofNat_of_lt' short] at exact_
  dsimp only at exact_
  rw [blockOf_slice] at exact_
  unfold step
  dsimp only
  rw [exact_]
  split
  · rename_i room
    refine accepted_inv inv framed rfl ?_ rfl rfl rfl room (Memory.slice_write _ _ _)
    exact Memory.sameOutside_write _ _ (Nat.le_refl _) room
  · exact refused_inv inv (.refl _ _ _) rfl rfl rfl

theorem fmt_inv (inv : Inv delim first s) {estimated : UInt64} {line : List UInt8}
    {text : CString} {small : text.length < 2 ^ 31}
    (allowed : Allowed delim s (.fmt estimated line text small)) :
    Inv delim first (step delim s (.fmt estimated line text small)) := by
  obtain ⟨framed, whole⟩ := allowed
  have formatted := fmtmem_formatted inv.bounded estimated (.text text small)
  unfold step
  dsimp only
  cases ok : (cprFmtmem s.mem estimated (some (.text text small))).2 with
  | false => exact refused_inv inv formatted.same formatted.get formatted.size (formatted.refused ok)
  | true =>
      obtain ⟨t, small', same, _, put, room, stored⟩ := formatted.accepted ok
      cases same
      exact accepted_inv inv framed whole formatted.same formatted.get formatted.size put room
        stored

theorem fmtError_inv (inv : Inv delim first s) (estimated : UInt64) (left : List UInt8) :
    Inv delim first (step delim s (.fmtError estimated left)) := by
  have formatted := fmtmem_formatted inv.bounded estimated (.error left)
  unfold step
  dsimp only
  cases ok : (cprFmtmem s.mem estimated (some (.error left))).2 with
  | false => exact refused_inv inv formatted.same formatted.get formatted.size (formatted.refused ok)
  | true =>
      obtain ⟨t, small', same, _⟩ := formatted.accepted ok
      cases same

/-- A get takes the oldest line that waits. -/
theorem get_inv (inv : Inv delim first s) (outlen : Bool)
    (waits : s.taken.length < s.accepted.length) :
    (step delim s (.get outlen)).accepted = s.accepted ∧
    (step delim s (.get outlen)).taken = s.taken ++ [s.accepted[s.taken.length]] ∧
    Inv delim first (step delim s (.get outlen)) := by
  have nonempty := delimBytes_ne_nil delim
  have front := inv.waits
  rw [List.drop_eq_getElem_cons waits, List.map_cons, List.flatten_cons] at front
  have framed := inv.framed _ (List.getElem_mem waits)
  obtain ⟨result, found⟩ := lgetmem_front outlen inv.behind inv.bounded.put framed front
  have cut := found_cut nonempty found
  have put := lgetmem_put s.mem outlen delim
  have size : (cprLgetmem s.mem outlen delim).mem.size = s.mem.size := cut.size
  have get : (cprLgetmem s.mem outlen delim).mem.get =
      s.mem.get + s.accepted[s.taken.length].length + (delimBytes (delimText delim)).length :=
    cut.get
  have bounded := inv.bounded
  have positive := List.length_pos_of_ne_nil nonempty
  have lengths := congrArg List.length front
  simp only [waiting, Memory.slice_length, List.length_append] at lengths
  have text : (cprLgetmem s.mem outlen delim).mem.data.slice s.mem.get
      s.accepted[s.taken.length].length = s.accepted[s.taken.length] := by
    have held := congrArg (List.take s.accepted[s.taken.length].length) front
    rw [List.append_assoc, List.take_left, waiting, Memory.slice_take _ _ (by omega)] at held
    exact cut.text.trans held
  have left : waiting (cprLgetmem s.mem outlen delim).mem =
      ((s.accepted.drop (s.taken.length + 1)).map (· ++ delimBytes (delimText delim))).flatten := by
    have behind_ := congrArg (List.drop
      (s.accepted[s.taken.length] ++ delimBytes (delimText delim)).length) front
    rw [List.drop_left, List.length_append, waiting, Memory.slice_drop _ _ (by omega)] at behind_
    rw [← behind_, waiting, get, put, ← Nat.add_assoc, Nat.sub_sub, ← Nat.add_assoc]
    exact Memory.slice_congr fun i _ => cut.others _ (by dsimp only; omega)
  have begins : s.taken ++ [s.accepted[s.taken.length]] <+: s.accepted := by
    have next := List.take_append_getElem waits
    rw [← List.prefix_iff_eq_take.mp inv.taken] at next
    rw [next]
    exact List.take_prefix _ _
  obtain ⟨get_le, put_le, limit⟩ := inv.bounded
  have bounded' : Bounded (cprLgetmem s.mem outlen delim).mem :=
    ⟨by omega, by omega, by omega⟩
  unfold step
  dsimp only
  rw [result]
  dsimp only
  rw [text]
  refine ⟨rfl, rfl, bounded', by dsimp only; omega, begins, inv.framed, ?_,
    size.trans inv.size, ?_⟩
  · rw [left, List.length_append, List.length_singleton]
  · intro i beyond
    have same := inv.size
    have outside := cut.others i (by dsimp only; omega)
    exact outside.trans (inv.outside i beyond)

/-! ## Whole runs -/

/-- An allowed call keeps the invariant, and each get takes one line. -/
theorem step_inv (inv : Inv delim first s) {call : Call} (allowed : Allowed delim s call) :
    Inv delim first (step delim s call) ∧
    (step delim s call).taken.length = s.taken.length + gets [call] := by
  have none_taken (call : Call) (quiet : gets [call] = 0)
      (same : (step delim s call).taken = s.taken) :
      (step delim s call).taken.length = s.taken.length + gets [call] := by
    rw [quiet, same, Nat.add_zero]
  cases call with
  | put line => exact ⟨put_inv inv allowed, none_taken _ rfl rfl⟩
  | fmt estimated line text small => exact ⟨fmt_inv inv allowed, none_taken _ rfl rfl⟩
  | fmtError estimated left => exact ⟨fmtError_inv inv estimated left, none_taken _ rfl rfl⟩
  | get outlen =>
      obtain ⟨_, taken, next⟩ := get_inv inv outlen allowed
      refine ⟨next, ?_⟩
      rw [taken, List.length_append]
      rfl

theorem run_inv (inv : Inv delim first s) (calls : List Call)
    (allowed : Throughout (step delim) (Allowed delim) s calls) :
    Inv delim first (calls.foldl (step delim) s) ∧
    (calls.foldl (step delim) s).taken.length = s.taken.length + gets calls := by
  induction calls generalizing s with
  | nil => exact ⟨inv, rfl⟩
  | cons call calls ih =>
      obtain ⟨next, count⟩ := step_inv inv allowed.1
      obtain ⟨final, total⟩ := ih next allowed.2
      refine ⟨final, total.trans ?_⟩
      have split : gets (call :: calls) = gets [call] + gets calls := by
        unfold gets
        rw [← List.countP_append, List.singleton_append]
      omega

/-- Through every interleaving of line puts and line gets on a block that starts empty,
in which a get finds a line waiting, the gets hand out the accepted lines one by one
in their order, whatever was formatted and refused in between; what waits is in the
block, and no byte outside of the block changes. -/
theorem memio_line_queue (mem : MemioT) (bounded : Bounded mem) (empty : mem.get = mem.put)
    (delim : Option Delim) (calls : List Call)
    (allowed : Throughout (step delim) (Allowed delim) ⟨mem, [], []⟩ calls) :
    let final := calls.foldl (step delim) ⟨mem, [], []⟩
    gets calls ≤ final.accepted.length ∧
    final.taken = final.accepted.take (gets calls) ∧
    waiting final.mem = ((final.accepted.drop (gets calls)).map
      (· ++ delimBytes (delimText delim))).flatten ∧
    ∀ i, mem.size ≤ i → final.mem.data i = mem.data i := by
  have start : Inv delim mem ⟨mem, [], []⟩ := by
    refine ⟨bounded, Nat.le_of_eq empty, List.prefix_rfl, by simp, ?_, rfl, fun _ _ => rfl⟩
    simp [waiting, empty]
  obtain ⟨inv, count⟩ := run_inv start calls allowed
  rw [List.length_nil, Nat.zero_add] at count
  have waits := inv.waits
  have taken := List.prefix_iff_eq_take.mp inv.taken
  rw [count] at waits taken
  exact ⟨count ▸ inv.taken.length_le, taken, waits, inv.outside⟩

/-- Two lines, the second one formatted behind a text that did not fit. -/
theorem memio_line_queue_two :
    ∃ final : History,
      final.taken = final.accepted.take 1 ∧ final.accepted = [[97], [98]] ∧
      waiting final.mem = [98, 10] := by
  have kept := memio_line_queue ⟨fun _ => 46, 0, 0, 8, false⟩ ⟨by decide, by decide, by decide⟩
    rfl none
    [.put [97], .fmtError 4 [120], .fmt 4 [98] ⟨[98, 10], by simp⟩ (by decide), .get false]
    ⟨⟨by decide, by decide⟩, trivial, ⟨by decide, rfl⟩,
      show (0 : Nat) < 2 by decide, trivial⟩
  exact ⟨_, kept.2.1, by decide, kept.2.2.1⟩

end CprFormal.Memio.LineQueue
