import CprFormal.Bufio.Refill

/-!
# Reads of a fixed size from a file

Over a file a request is answered from the unread bytes and one `read()`.  Compacting
makes room for it except when the buffer is exhausted: then only what lies behind
`start` is used.
-/

namespace CprFormal.Bufio.FixedReads

open CprFormal.Library.FlatMemory CprFormal.Library.Transition
open CprFormal.Bufio.Model CprFormal.Bufio.Reader CprFormal.Bufio.Refill
open CprFormal.Bufio.Model.BufioT (bufAt)

/-- A `read()` from a file: as many of the bytes left as it is asked for. -/
def readFile (left : List UInt8) (count : Nat) : ReadResult := .bytes (left.take count)

/-- The request is unread already, or there are enough bytes left and room for them. -/
def Answered (r : BufioT) (left : List UInt8) (request : Nat) : Prop :=
  request ≤ r.unread.length ∨ request ≤ (r.unread ++ left).length ∧
    (r.start < r.end_ ∨ request ≤ r.bufsize - r.start)

theorem fillbuf_file {r : BufioT} (cursors : Cursors r) (left : List UInt8) {request : Nat}
    (positive : 0 < request) (fits : request ≤ r.bufsize) :
    ((cprFillbuf r request (readFile left)).ok = true ↔ Answered r left request) ∧
    (cprFillbuf r request (readFile left)).delivered <+: left := by
  obtain ⟨order, inside⟩ := cursors
  unfold Answered
  rw [List.length_append, unread_length]
  have some_ : request ≠ 0 := Nat.ne_of_gt positive
  have whole : cprFillbuf r request (readFile left) =
      if r.end_ - r.start < request then fillRead (compact r request) request false (readFile left)
      else ⟨r.terminate, true, none, []⟩ := by
    unfold cprFillbuf
    rw [if_neg (by omega)]
    simp only [some_, decide_false, if_false]
  rw [whole]
  by_cases short : r.end_ - r.start < request
  · rw [if_pos short]
    obtain ⟨_, same, bufsize, _⟩ := compact_spec ⟨order, inside⟩ request
    have placed : (compact r request).end_ - (compact r request).start = r.end_ - r.start := by
      rw [← unread_length, same, unread_length]
    obtain ⟨ok, _, _, delivered⟩ := fillRead_delivered request false
      (show readFile left ((compact r request).bufsize - (compact r request).end_) =
        .bytes _ from rfl)
    rw [List.take_take, Nat.min_self] at ok delivered
    refine ⟨?_, delivered ▸ List.take_prefix _ _⟩
    rw [ok, bufsize, List.length_take, ← List.length_pos_iff, List.length_take]
    -- The buffer is compacted when the request does not fit behind `start`.
    by_cases moved : r.bufsize - r.start < request ∧ r.start < r.end_
    · have start : (compact r request).start = 0 := by
        unfold compact
        rw [if_pos moved]
      omega
    · have kept : compact r request = r := if_neg moved
      rw [kept]
      omega
  · rw [if_neg short]
    exact ⟨⟨fun _ => .inl (Nat.le_of_not_lt short), fun _ => rfl⟩, List.nil_prefix⟩

/-- What a request returns, and which bytes are then unread or left. -/
theorem xgetbuf_file {r : BufioT} (cursors : Cursors r) (left : List UInt8) {request : Nat}
    (positive : 0 < request) (fits : request ≤ r.bufsize) :
    let get := cprXgetbuf r request (readFile left)
    (Answered r left request → get.result = some ((r.unread ++ left).take request)) ∧
    (¬ Answered r left request → get.result = none) ∧
    Cursors get.buf ∧ get.buf.bufsize = r.bufsize ∧
    r.unread ++ left =
      get.result.getD [] ++ (get.buf.unread ++ left.drop get.delivered.length) := by
  obtain ⟨cursors', bufsize, balance, _⟩ := xgetbuf_spec cursors request (readFile left)
  obtain ⟨ok, delivered⟩ := fillbuf_file cursors left positive fits
  have filled := fillbuf_filled cursors request (readFile left)
  have enough := fillbuf_enough r request (readFile left)
  have same : (cprXgetbuf r request (readFile left)).delivered =
      (cprFillbuf r request (readFile left)).delivered := by
    unfold cprXgetbuf
    rw [if_neg (Nat.not_lt.mpr fits)]
    dsimp only
    split <;> rfl
  have split : (cprXgetbuf r request (readFile left)).delivered ++
      left.drop (cprXgetbuf r request (readFile left)).delivered.length = left := by
    rw [same]
    exact List.prefix_iff_eq_append.mp delivered
  rw [← ok]
  refine ⟨fun success => ?_, fun failure => ?_, cursors', bufsize, ?_⟩
  · obtain ⟨rest, whole⟩ := delivered
    have room := enough success
    have stream : r.unread ++ left =
        (cprFillbuf r request (readFile left)).buf.unread ++ rest := by
      rw [filled.unread, List.append_assoc, whole]
    unfold cprXgetbuf
    rw [if_neg (Nat.not_lt.mpr fits)]
    dsimp only
    rw [if_pos success, stream, List.take_append_of_le_length (by rwa [unread_length])]
    unfold BufioT.unread
    rw [Memory.slice_take _ _ room]
  · unfold cprXgetbuf
    rw [if_neg (Nat.not_lt.mpr fits)]
    dsimp only
    rw [if_neg failure]
  · rw [← List.append_assoc, ← balance, List.append_assoc, split]

/-- A buffer over a file, the bytes of the file that `read()` has not delivered, and how
many have been returned. -/
structure State where
  buf : BufioT
  left : List UInt8
  consumed : Nat

/-- A buffer as it is made over the file `s`. -/
def fresh (bufsize put : Nat) (mem : Memory UInt8) (s : List UInt8) : State :=
  ⟨⟨bufsize, 0, 0, put, mem⟩, s, 0⟩

def step (s : State) (request : Nat) : State :=
  let get := cprXgetbuf s.buf request (readFile s.left)
  ⟨get.buf, s.left.drop get.delivered.length, s.consumed + (get.result.getD []).length⟩

/-- A request returns the next bytes of the file, or `NULL` if there are fewer. -/
def Complete (file : List UInt8) (s : State) (request : Nat) : Prop :=
  (cprXgetbuf s.buf request (readFile s.left)).result =
    if request ≤ (file.drop s.consumed).length then some ((file.drop s.consumed).take request)
    else none

/-- The buffer is not exhausted, or the request fits behind `start`, or there are not
enough bytes anyway. -/
def Roomy (file : List UInt8) (s : State) (request : Nat) : Prop :=
  s.buf.start < s.buf.end_ ∨ request ≤ s.buf.bufsize - s.buf.start ∨
    (file.drop s.consumed).length < request

/-- What is not consumed of the file is unread or has not been delivered; the requests
to come are not empty and fit in the buffer. -/
structure Inv (file : List UInt8) (bufsize : Nat) (s : State) (requests : List Nat) :
    Prop where
  cursors : Cursors s.buf
  size : s.buf.bufsize = bufsize
  stream : file.drop s.consumed = s.buf.unread ++ s.left
  requests : ∀ request ∈ requests, 1 ≤ request ∧ request ≤ bufsize

theorem step_inv {file : List UInt8} {bufsize : Nat} {s : State} {request : Nat}
    {rest : List Nat} (inv : Inv file bufsize s (request :: rest)) :
    Inv file bufsize (step s request) rest := by
  obtain ⟨cursors, size, stream, requests⟩ := inv
  obtain ⟨positive, fits⟩ := requests request List.mem_cons_self
  obtain ⟨_, _, cursors', size', balance⟩ :=
    xgetbuf_file cursors s.left positive (by omega)
  refine ⟨cursors', size'.trans size, ?_, fun r member => requests r (.tail _ member)⟩
  unfold step
  dsimp only
  rw [← List.drop_drop, stream, balance, List.drop_left]

theorem step_complete_iff {file : List UInt8} {bufsize : Nat} {s : State} {request : Nat}
    {rest : List Nat} (inv : Inv file bufsize s (request :: rest)) :
    Complete file s request ↔ Roomy file s request := by
  obtain ⟨cursors, size, stream, requests⟩ := inv
  obtain ⟨positive, fits⟩ := requests request List.mem_cons_self
  obtain ⟨some_, none_, _⟩ := xgetbuf_file cursors s.left positive (by omega)
  have order := cursors.start
  have unread := unread_length s.buf
  unfold Complete Roomy
  rw [stream]
  by_cases answered : Answered s.buf s.left request
  · rw [some_ answered]
    unfold Answered at answered
    rw [List.length_append] at answered ⊢
    rw [if_pos (by omega)]
    exact ⟨fun _ => by omega, fun _ => rfl⟩
  · rw [none_ answered]
    unfold Answered at answered
    rw [List.length_append] at answered ⊢
    by_cases enough : request ≤ s.buf.unread.length + s.left.length
    · rw [if_pos enough]
      exact ⟨nofun, fun roomy => by omega⟩
    · rw [if_neg enough]
      exact ⟨fun _ => .inr (.inr (Nat.lt_of_not_le enough)), fun _ => rfl⟩

/-- Every request of a run returns the next bytes of the file, as long as there are
enough, exactly when no request for more than fits behind `start` comes while the buffer
is exhausted. -/
theorem fixed_reads_complete_iff (bufsize put : Nat) (mem : Memory UInt8) (file : List UInt8)
    (requests : List Nat) (sized : ∀ request ∈ requests, 1 ≤ request ∧ request ≤ bufsize) :
    Throughout step (Complete file) (fresh bufsize put mem file) requests ↔
      Throughout step (Roomy file) (fresh bufsize put mem file) requests :=
  throughout_congr (Inv file bufsize) (fun _ _ _ inv _ => step_inv inv)
    (fun _ _ _ inv => step_complete_iff inv) ⟨⟨Nat.le_refl _, Nat.zero_le _⟩, rfl, rfl, sized⟩

/-- Two requests that leave a byte behind each time. -/
theorem fixed_reads_complete_iff_two :
    Throughout step (Complete [1, 2, 3, 4, 5]) (fresh 4 0 (fun _ => 0) [1, 2, 3, 4, 5]) [3, 2] :=
  (fixed_reads_complete_iff 4 0 (fun _ => 0) [1, 2, 3, 4, 5] [3, 2] (by decide)).mpr
    ⟨.inr (.inl (by decide)), .inl (by decide), trivial⟩

/-- When four bytes have been taken at once from a buffer of four, the next one is not
read. -/
theorem fixed_reads_exhausted :
    ¬ ∀ (bufsize put : Nat) (mem : Memory UInt8) (file : List UInt8) (requests : List Nat),
      1 ≤ bufsize → (∀ request ∈ requests, 1 ≤ request ∧ request ≤ bufsize) →
      Throughout step (Complete file) (fresh bufsize put mem file) requests := by
  intro claimed
  have complete := claimed 4 0 (fun _ => 0) [1, 2, 3, 4, 5, 6, 7, 8] [4, 1] (by decide)
    (by decide)
  exact absurd complete.2.1 (by unfold Complete; decide +kernel)

end CprFormal.Bufio.FixedReads
