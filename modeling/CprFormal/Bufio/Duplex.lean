import CprFormal.Bufio.Reader
import CprFormal.Bufio.WriteArea

/-!
# Both sides of a buffered stream

Read-side calls write below `buf[bufsize]`, that byte included, and write-side calls
write at and above `out[0]`.  The structure is padded behind the two bytes of `buf`
that it declares, so the terminator of a full read area lies in front of the write
area.
-/

namespace CprFormal.Bufio.Duplex

open CprFormal.Library.FlatMemory CprFormal.Library.Transition
open CprFormal.Bufio.Model
open CprFormal.Bufio.Model.BufioT (bufAt)
open CprFormal.Bufio.Reader (Cursors Scanning State)
open CprFormal.Bufio.WriteArea (Stays)

/-! ## Keeping to the own area -/

/-- What every read-side step keeps. -/
structure Keeps (r r' : BufioT) : Prop where
  bufsize : r'.bufsize = r.bufsize
  put : r'.put = r.put
  mem : r.mem.SameOutside r'.mem (bufAt 0) (bufAt r.bufsize + 1)

theorem Keeps.refl (r : BufioT) : Keeps r r := ⟨rfl, rfl, .refl _ _ _⟩

theorem Keeps.trans {r r' r'' : BufioT} (first : Keeps r r') (second : Keeps r' r'') :
    Keeps r r'' := by
  refine ⟨second.bufsize.trans first.bufsize, second.put.trans first.put, first.mem.trans ?_⟩
  have mem := second.mem
  rwa [first.bufsize] at mem

/-- The addresses of the read area. -/
theorem bufAt_le {i j : Nat} : bufAt i ≤ bufAt j ↔ i ≤ j := Nat.add_le_add_iff_left

theorem terminate_keeps {r : BufioT} (bound : r.end_ ≤ r.bufsize) : Keeps r r.terminate :=
  ⟨rfl, rfl, Memory.sameOutside_set _ _ (bufAt_le.mpr (Nat.zero_le _))
    (Nat.lt_succ_of_le (bufAt_le.mpr bound))⟩

/-- Moving unread bytes to the front. -/
theorem move_keeps {r : BufioT} (src : Nat) {n : Nat} (bound : n ≤ r.bufsize) :
    r.mem.SameOutside (r.mem.move (bufAt 0) src n) (bufAt 0) (bufAt r.bufsize + 1) := by
  refine Memory.sameOutside_move _ _ (Nat.le_refl _) (Nat.le_succ_of_le ?_)
  rw [← Reader.bufAt_add, Nat.zero_add]
  exact bufAt_le.mpr bound

theorem compact_keeps {r : BufioT} (cursors : Cursors r) (request : Nat) :
    Keeps r (compact r request) := by
  have bound := cursors.end_
  unfold compact
  split
  · exact ⟨rfl, rfl, move_keeps _ (by omega)⟩
  · exact .refl r

theorem fillRead_keeps {r : BufioT} (cursors : Cursors r) (request : Nat) (refill : Bool)
    (io : Nat → ReadResult) : Keeps r (fillRead r request refill io).buf := by
  obtain ⟨ok, bytes, room, read⟩ := Reader.fillRead_stores r request refill io
  have bound := cursors.end_
  rw [read]
  have filled : Keeps r { r with
      mem := r.mem.write (bufAt r.end_) bytes
      end_ := r.end_ + bytes.length } := by
    refine ⟨rfl, rfl, Memory.sameOutside_write _ _ (bufAt_le.mpr (Nat.zero_le _)) ?_⟩
    rw [← Reader.bufAt_add]
    exact Nat.le_succ_of_le (bufAt_le.mpr (by omega))
  refine filled.trans (terminate_keeps ?_)
  change r.end_ + bytes.length ≤ r.bufsize
  omega

theorem fillbuf_keeps {r : BufioT} (cursors : Cursors r) (request : Nat)
    (io : Nat → ReadResult) : Keeps r (cprFillbuf r request io).buf := by
  unfold cprFillbuf
  split
  · exact .refl r
  · dsimp only
    generalize (if request = 0 then r.bufsize else request) = need
    split
    · exact (compact_keeps cursors need).trans
        (fillRead_keeps (Reader.compact_spec cursors need).1 need _ io)
    · exact terminate_keeps cursors.end_

theorem xgetbuf_keeps {r : BufioT} (cursors : Cursors r) (request : Nat)
    (io : Nat → ReadResult) : Keeps r (cprXgetbuf r request io).buf := by
  have filled := fillbuf_keeps cursors request io
  unfold cprXgetbuf
  split
  · exact .refl r
  · dsimp only
    split
    · exact ⟨filled.bufsize, filled.put, filled.mem⟩
    · exact filled

theorem resetbuf_keeps {r : BufioT} (cursors : Cursors r) (consume : Nat)
    (io : Nat → ReadResult) : Keeps r (cprResetbuf r consume io).buf := by
  have bound := cursors.end_
  have moved : Keeps r (resetMove r (r.start + consume)) := by
    refine ⟨rfl, rfl, ?_⟩
    unfold resetMove
    dsimp only
    split
    · exact move_keeps _ (by omega)
    · exact .refl _ _ _
  unfold cprResetbuf
  split
  · exact .refl r
  · split
    · dsimp only
      split
      · exact moved.trans (fillbuf_keeps (Reader.resetMove_spec _ bound).1 _ io)
      · exact moved
    · exact .refl r

/-- The buffer behind a pass of `cpr_lgetbuf`. -/
theorem pass_keeps {r : BufioT} (cursors : Cursors r) (delim : List UInt8) (outlen : Bool)
    (scan : Nat) (io : Nat → ReadResult) :
    match lgetbufPass r delim outlen scan io with
    | .line buf _ => Keeps r buf
    | .null fill => Keeps r fill.buf
    | .again fill _ => Keeps r fill.buf := by
  have filled := fillbuf_keeps cursors 0 io
  unfold lgetbufPass
  cases Library.Search.searchUp (matchesAt r.mem (bufAt 0) delim)
      (r.end_ + 1 - (scan + delim.length)) scan with
  | mk stop hit =>
    cases hit with
    | true =>
        refine ⟨rfl, rfl, ?_⟩
        dsimp only
        split
        · exact .refl _ _ _
        · split
          · exact Memory.sameOutside_set _ _ (bufAt_le.mpr (Nat.zero_le _))
              (Nat.lt_succ_of_le (bufAt_le.mpr (by omega)))
          · exact .refl _ _ _
    | false =>
        dsimp only
        cases ok : (cprFillbuf r 0 io).ok with
        | true =>
            simp only [if_true]
            exact filled
        | false =>
            simp only [Bool.false_eq_true, if_false]
            exact filled

/-- Every read-side call, and every pass of `cpr_lgetbuf`, keeps to the read area and
leaves the write side alone. -/
theorem read_keeps {s s' : State} {call : Reader.Call} (cursors : Cursors s.buf)
    (stepped : Reader.step s call = some s') : Keeps s.buf s'.buf := by
  cases call with
  | fillbuf request io =>
      rw [← Reader.of_idle stepped]
      exact fillbuf_keeps cursors request io
  | xgetbuf request io =>
      rw [← Reader.of_idle stepped]
      exact xgetbuf_keeps cursors request io
  | cgetbuf io =>
      rw [← Reader.of_idle stepped]
      exact xgetbuf_keeps cursors 1 io
  | resetbuf consume io =>
      rw [← Reader.of_idle stepped]
      exact resetbuf_keeps cursors consume io
  | lgetbuf delim outlen =>
      rw [← Reader.of_idle stepped]
      exact .refl _
  | pass io =>
      simp only [Reader.step] at stepped
      cases running : s.scanning with
      | none =>
          simp only [running] at stepped
          cases stepped
      | some line =>
          have kept := pass_keeps cursors line.delim line.outlen line.scan io
          simp only [running] at stepped
          cases pass : lgetbufPass s.buf line.delim line.outlen line.scan io <;>
          · rw [pass] at stepped kept
            cases stepped
            exact kept

/-- A read-side call or pass, or a write-side call. -/
inductive Event where
  | read (call : Reader.Call)
  | write (call : WriteArea.Call)

/-- A write-side call may come between two passes of `cpr_lgetbuf`. -/
inductive Step : State → Event → State → Prop where
  | read {s s' : State} (call : Reader.Call) (stepped : Reader.step s call = some s') :
      Step s (.read call) s'
  | write {s : State} (call : WriteArea.Call) :
      Step s (.write call) { s with buf := (WriteArea.perform s.buf call).buf }

/-- The history of the read side begins with what is unread. -/
def system : System State Event where
  init s := s.buf.start ≤ s.buf.end_ ∧ s.buf.end_ ≤ s.buf.bufsize ∧
    s.buf.put ≤ s.buf.bufsize ∧ s.scanning = none ∧
    s.delivered = s.buf.unread ∧ s.consumed = [] ∧ s.asked = []
  step := Step

/-- What a step leaves of the other side. -/
def Apart (r r' : BufioT) : Event → Prop
  | .read _ =>
      r'.put = r.put ∧
        r'.mem.slice (r.outAt 0) r.bufsize = r.mem.slice (r.outAt 0) r.bufsize
  | .write _ => r'.start = r.start ∧ r'.end_ = r.end_ ∧ r'.unread = r.unread

/-- The terminator of a full read area lies in front of the write area. -/
theorem terminator_below (r : BufioT) : bufAt r.bufsize + 1 ≤ r.outAt 0 := by
  unfold bufAt BufioT.outAt offsetofBuf sizeofBufio
  omega

theorem stays_unread {w w' : BufioT} (stays : Stays w w') (cursors : Cursors w) :
    w'.unread = w.unread := by
  have ordered := cursors.start
  have bound := cursors.end_
  unfold BufioT.unread
  rw [stays.start, stays.end_]
  refine stays.mem.slice (.inl ?_)
  rw [← Reader.bufAt_add]
  exact Nat.le_trans (bufAt_le.mpr (by omega)) (Nat.le_of_succ_le (terminator_below w))

/-! ## Whole runs -/

/-- What every run maintains. -/
structure Inv (s : State) : Prop where
  reader : Reader.Inv s
  put : s.buf.put ≤ s.buf.bufsize

theorem step_inv {s s' : State} {e : Event} (inv : Inv s) (step : Step s e s') : Inv s' := by
  cases step with
  | read call stepped =>
      have keeps := read_keeps inv.reader.cursors stepped
      refine ⟨Reader.step_inv inv.reader stepped, ?_⟩
      rw [keeps.put, keeps.bufsize]
      exact inv.put
  | write call =>
      have stays := WriteArea.perform_stays call inv.put
      have cursors := inv.reader.cursors
      refine ⟨⟨⟨?_, ?_⟩, ?_, inv.reader.asked, ?_⟩, stays.put⟩
      · change (WriteArea.perform s.buf call).buf.start ≤ (WriteArea.perform s.buf call).buf.end_
        rw [stays.start, stays.end_]
        exact cursors.start
      · change (WriteArea.perform s.buf call).buf.end_ ≤
          (WriteArea.perform s.buf call).buf.bufsize
        rw [stays.end_, stays.bufsize]
        exact cursors.end_
      · change s.delivered = s.consumed ++ (WriteArea.perform s.buf call).buf.unread
        rw [stays_unread stays cursors]
        exact inv.reader.stream
      · intro line running
        obtain ⟨nonempty, behind⟩ := inv.reader.scanning line running
        refine ⟨nonempty, ?_⟩
        change (WriteArea.perform s.buf call).buf.start ≤ line.scan
        rwa [stays.start]

theorem step_apart {s s' : State} {e : Event} (inv : Inv s) (step : Step s e s') :
    Apart s.buf s'.buf e := by
  cases step with
  | read call stepped =>
      have keeps := read_keeps inv.reader.cursors stepped
      exact ⟨keeps.put, keeps.mem.slice (.inr (terminator_below s.buf))⟩
  | write call =>
      have stays := WriteArea.perform_stays call inv.put
      exact ⟨stays.start, stays.end_, stays_unread stays inv.reader.cursors⟩

/-- Every write lands behind the fields and inside the allocation. -/
theorem step_inside {s s' : State} {e : Event} (inv : Inv s) (step : Step s e s') :
    s.buf.mem.SameOutside s'.buf.mem offsetofBuf (sizeofBufio + 2 * s.buf.bufsize) := by
  have below := terminator_below s.buf
  have top : s.buf.outAt s.buf.bufsize = sizeofBufio + 2 * s.buf.bufsize := by
    unfold BufioT.outAt
    omega
  have bottom : s.buf.outAt 0 ≤ s.buf.outAt s.buf.bufsize :=
    Nat.add_le_add_left (Nat.zero_le _) _
  cases step with
  | read call stepped =>
      have keeps := read_keeps inv.reader.cursors stepped
      exact keeps.mem.widen (Nat.le_refl _) (by omega)
  | write call =>
      have stays := WriteArea.perform_stays call inv.put
      refine stays.mem.widen ?_ (Nat.le_of_eq top)
      exact Nat.le_trans (Nat.le_add_right _ _) (Nat.le_of_succ_le below)

/-- Through every interleaving the cursors stay in bounds, a step of one side leaves
the cursors and the bytes of the other, and it writes inside the allocation. -/
theorem full_duplex {trace : List Event} {s : State} (run : Run system trace s) :
    s.buf.start ≤ s.buf.end_ ∧ s.buf.end_ ≤ s.buf.bufsize ∧ s.buf.put ≤ s.buf.bufsize ∧
    ∀ e s', Step s e s' → Apart s.buf s'.buf e ∧
      s.buf.mem.SameOutside s'.buf.mem offsetofBuf (sizeofBufio + 2 * s.buf.bufsize) := by
  have inv : Inv s := by
    refine Run.invariant (fun _ s => Inv s) ?_ ?_ run
    · rintro s ⟨start, bound, put, idle, delivered, consumed, asked⟩
      refine ⟨⟨⟨start, bound⟩, ?_, ?_, ?_⟩, put⟩
      · rw [delivered, consumed]
        rfl
      · intro n member
        rw [asked] at member
        cases member
      · intro line running
        rw [idle] at running
        cases running
    · intro _ s e s' inv step
      exact step_inv inv step
  have cursors := inv.reader.cursors
  exact ⟨cursors.start, cursors.end_, inv.put,
    fun _ _ step => ⟨step_apart inv step, step_inside inv step⟩⟩

/-- A read fills the read area behind two pending bytes, and its terminator leaves
them alone. -/
theorem full_duplex_full :
    ∃ (trace : List Event) (s s' : State), Run system trace s ∧
      Step s (.read (.fillbuf 2 fun _ => .bytes [1, 2])) s' ∧
      s'.buf.end_ = s'.buf.bufsize ∧ s'.buf.pending = [7, 8] := by
  have start : Run system [] ⟨⟨2, 0, 0, 0, fun _ => 9⟩, none, [], [], []⟩ :=
    .start ⟨by decide, by decide, by decide, rfl, rfl, rfl, rfl⟩
  have stored := start.next (.write ⟨.plain (.xputbuf (some [7, 8])), .error⟩)
  have apart := ((full_duplex stored).2.2.2 _ _
    (.read (.fillbuf 2 fun _ => .bytes [1, 2]) rfl)).1
  exact ⟨_, _, _, stored, .read _ rfl, rfl, apart.2⟩

end CprFormal.Bufio.Duplex
