import CprFormal.Memio.Model

/-!
# Lines of a stream and lines of a block

`cpr_lgetmem` yields the lines of a block one after the other.  `cpr_lgetbuf` over
a descriptor with the same bytes yields none of them when the buffer is larger than
the bytes: the first `cpr_fillbuf` reads them all, has fewer than `bufsize`, and
returns false, so they are never scanned.
-/

namespace CprFormal.Memio.StreamLines

open CprFormal.Library.FlatMemory
open CprFormal.Bufio.Model
open CprFormal.Memio.Model

/-- A `read()` that delivers what is left up to the count. -/
def deliver (left : List UInt8) (count : Nat) : ReadResult := .bytes (left.take count)

/-- The loop of `cpr_lgetbuf` over such a descriptor.  The result is the line, or
`NULL`, with the buffer and the bytes left; `none` stands for a loop that has used
up its fuel. -/
def lgetbufLoop (delim : List UInt8) : Nat → BufioT → List UInt8 → Nat →
    Option (Option (List UInt8) × BufioT × List UInt8)
  | 0, _, _, _ => none
  | fuel + 1, r, left, scan =>
      match lgetbufPass r delim true scan (deliver left) with
      | .line buf text => some (some text, buf, left)
      | .null fill => some (none, fill.buf, left.drop fill.delivered.length)
      | .again fill scan =>
          lgetbufLoop delim fuel fill.buf (left.drop fill.delivered.length) scan

/-- `cpr_lgetbuf(r, &len, delim)` -/
def cprLgetbuf (fuel : Nat) (r : BufioT) (left : List UInt8) (delim : Option Delim) :
    Option (Option (List UInt8) × BufioT × List UInt8) :=
  lgetbufLoop (delimBytes (delimText delim)) fuel r left r.start

/-- The lines of `cpr_lgetbuf` until its first `NULL`. -/
def streamLines (delim : Option Delim) : Nat → BufioT → List UInt8 → Option (List (List UInt8))
  | 0, _, _ => none
  | fuel + 1, r, left =>
      match cprLgetbuf (fuel + 1) r left delim with
      | none => none
      | some (none, _, _) => some []
      | some (some text, buf, left) => (streamLines delim fuel buf left).map (text :: ·)

/-- The lines of `cpr_lgetmem` until its first `NULL`. -/
def memLines (delim : Option Delim) : Nat → MemioT → Option (List (List UInt8))
  | 0, _ => none
  | fuel + 1, mem =>
      let line := cprLgetmem mem true delim
      match line.result with
      | none => some []
      | some (start, len) => (memLines delim fuel line.mem).map (mem.data.slice start len :: ·)

/-- A `bufio_t` as it is made, over any contents of its allocation. -/
def freshBuf (bufsize : Nat) (mem : Memory UInt8) : BufioT := ⟨bufsize, 0, 0, 0, mem⟩

/-- A block that holds `s`. -/
def blockOf (s : List UInt8) : Memory UInt8 := fun i => s.getD i 0

/-- Calling `cpr_lgetmem` comes to an end: every line takes at least its delimiter. -/
theorem memLines_ends (delim : Option Delim) {fuel : Nat} (mem : MemioT)
    (enough : mem.size - mem.get < fuel) : ∃ lines, memLines delim fuel mem = some lines := by
  induction fuel generalizing mem with
  | zero => exact absurd enough (Nat.not_lt_zero _)
  | succ fuel ih =>
      unfold memLines
      dsimp only
      cases found : (cprLgetmem mem true delim).result with
      | none => exact ⟨[], rfl⟩
      | some line =>
          obtain ⟨start, len⟩ := line
          obtain ⟨inside, advanced, size⟩ := lgetmem_some found
          have positive := List.length_pos_of_ne_nil (delimBytes_ne_nil delim)
          obtain ⟨rest, later⟩ := ih (cprLgetmem mem true delim).mem (by omega)
          exact ⟨_, by rw [later]; rfl⟩

/-- There are no lines exactly when the delimiter does not occur. -/
theorem memLines_nil_iff (delim : Option Delim) (fuel : Nat) (mem : MemioT) :
    memLines delim (fuel + 1) mem = some [] ↔
      ¬ delimBytes (delimText delim) <:+: mem.unread := by
  rw [← lgetmem_none_iff mem true delim]
  unfold memLines
  dsimp only
  cases (cprLgetmem mem true delim).result with
  | none => simp
  | some line => simp

theorem initmem_unread (s : List UInt8) : (cprInitmem (blockOf s) s.length).unread = s := by
  apply List.ext_getElem
  · simp [MemioT.unread, cprInitmem]
  · intro i low high
    simp only [MemioT.unread, Memory.getElem_slice]
    simp [cprInitmem, blockOf, high]

/-- Filling an empty buffer from fewer bytes than it holds returns false. -/
theorem fillbuf_refill_short {bufsize : Nat} (mem : Memory UInt8) {s : List UInt8}
    (room : s.length < bufsize) : (cprFillbuf (freshBuf bufsize mem) 0 (deliver s)).ok = false := by
  have whole : (s.take bufsize).take bufsize = s := by
    rw [List.take_take, Nat.min_self, List.take_of_length_le (Nat.le_of_lt room)]
  have positive : 0 < bufsize := Nat.lt_of_le_of_lt (Nat.zero_le _) room
  simp only [cprFillbuf, freshBuf, compact, fillRead, deliver, Nat.sub_zero, Nat.not_lt_zero,
    gt_iff_lt, if_false, if_true, positive, Nat.lt_irrefl, false_and, whole]
  cases s with
  | nil => rfl
  | cons b bs =>
      simp only [Nat.zero_add, decide_eq_false_iff_not, not_not]
      exact room

/-- The first `cpr_lgetbuf` is `NULL`. -/
theorem streamLines_short (delim : Option Delim) {bufsize : Nat} (mem : Memory UInt8)
    {s : List UInt8} (room : s.length < bufsize) (fuel : Nat) :
    streamLines delim (fuel + 1) (freshBuf bufsize mem) s = some [] := by
  have positive := List.length_pos_of_ne_nil (delimBytes_ne_nil delim)
  have nothing : (freshBuf bufsize mem).end_ + 1 -
      ((freshBuf bufsize mem).start + (delimBytes (delimText delim)).length) = 0 := by
    change 0 + 1 - (0 + _) = 0
    omega
  unfold streamLines cprLgetbuf lgetbufLoop lgetbufPass
  rw [nothing]
  simp only [Library.Search.searchUp, fillbuf_refill_short mem room, if_neg Bool.false_ne_true]

/-- For every text, every delimiter of at most sixteen bytes and every buffer that
is larger than the text, both parsers come to their `NULL`, and they have yielded
the same lines exactly when the delimiter does not occur in the text. -/
theorem line_parsers_agree_iff (s : List UInt8) (delim : Delim)
    (short : delim.text.length ≤ 16) (bufsize : Nat) (room : s.length < bufsize)
    (mem : Memory UInt8) (fuel : Nat) (enough : s.length < fuel) :
    ∃ stream block,
      streamLines (some delim) fuel (freshBuf bufsize mem) s = some stream ∧
      memLines (some delim) fuel (cprInitmem (blockOf s) s.length) = some block ∧
      (stream = block ↔ ¬ delim.text.bytes <:+: s) := by
  obtain ⟨block, ended⟩ := memLines_ends (some delim) (cprInitmem (blockOf s) s.length)
    (show s.length - 0 < fuel from enough)
  obtain ⟨fuel, rfl⟩ : ∃ n, fuel = n + 1 := Nat.exists_eq_add_one.mpr (by omega)
  refine ⟨[], block, streamLines_short (some delim) mem room fuel, ended, ?_⟩
  have empty := memLines_nil_iff (some delim) fuel (cprInitmem (blockOf s) s.length)
  rw [ended, initmem_unread, Option.some_inj] at empty
  rw [eq_comm, empty, delimText, delimBytes_short short]

/-- A text without a newline in a buffer of eight. -/
theorem line_parsers_agree_iff_unended :
    ∃ stream block,
      streamLines (some ⟨⟨[10], by simp⟩, by simp⟩) 2 (freshBuf 8 fun _ => 0) [97] =
        some stream ∧
      memLines (some ⟨⟨[10], by simp⟩, by simp⟩) 2 (cprInitmem (blockOf [97]) 1) =
        some block ∧
      (stream = block ↔ ¬ [10] <:+: [(97 : UInt8)]) :=
  line_parsers_agree_iff [97] ⟨⟨[10], by simp⟩, by simp⟩ (by decide) 8 (by decide) _ 2
    (by decide)

/-- The block `"a\n"` has one line and the stream none. -/
theorem line_parsers_differ :
    ¬ ∀ (s : List UInt8) (delim : Delim), delim.text.length ≤ 16 →
      ∀ bufsize > s.length, ∀ fuel > s.length,
        streamLines (some delim) fuel (freshBuf bufsize fun _ => 0) s =
          memLines (some delim) fuel (cprInitmem (blockOf s) s.length) := by
  intro agree
  have same := agree [97, 10] ⟨⟨[10], by simp⟩, by simp⟩ (by decide) 8 (by decide) 3 (by decide)
  exact absurd same (by decide)

end CprFormal.Memio.StreamLines
