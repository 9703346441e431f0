import CprFormal.Library.Transition
import CprFormal.Socket.Editing

/-!
# Codes and errors

A byte from 128 on gives a negative code, and the byte 255 gives the code of a failure.
A call fails without a failure of `recv` exactly when that byte comes while the line is
open.
-/

namespace CprFormal.Socket.Codes

open CprFormal.Library.FlatMemory CprFormal.Library.Transition
open CprFormal.Socket.Editing CprFormal.Socket.Model

/-- `recv` delivers a byte. -/
def deliver (limit : Nat) (echo : Bool) (s : Getline) (b : UInt8) : Getline :=
  cprGetline limit echo s (some b)

theorem again_ne_lost {limit : Nat} {s : Getline} (waiting : s.result = none) :
    (s.again limit).result ≠ some (-1) := by
  unfold Getline.again
  split
  · rw [waiting]
    exact nofun
  · intro lost
    have below : (s.pos : Int) = -1 := Option.some.inj lost
    omega

/-- Only a lost connection gives the error code. -/
theorem onKey_ne_lost {limit : Nat} {echo : Bool} {s : Getline} (waiting : s.result = none)
    {key : Key} (alive : key ≠ .lost) : (onKey limit echo s key).result ≠ some (-1) := by
  rcases onKey_cases limit echo s key with ⟨lost, -⟩ | returned | ⟨t, same, tested⟩
  · exact absurd lost alive
  · rw [returned]
    intro lost
    have below : (s.pos : Int) = -1 := Option.some.inj lost
    omega
  · rw [tested]
    exact again_ne_lost (same.trans waiting)

theorem keyOf_lost_iff (b : UInt8) : keyOf (some b) = .lost ↔ b = 255 := by
  obtain ⟨b⟩ := b
  revert b
  decide +kernel

/-- A delivered byte makes the call fail when it is 255 and the line is open. -/
theorem deliver_lost_iff {limit : Nat} {echo : Bool} {s : Getline}
    (before : s.result ≠ some (-1)) (b : UInt8) :
    (deliver limit echo s b).result ≠ some (-1) ↔ (s.result = none → b ≠ 255) := by
  cases result : s.result with
  | some r =>
      rw [deliver, cprGetline_returned result]
      exact ⟨fun _ => nofun, fun _ => before⟩
  | none =>
      rw [deliver, cprGetline_waiting result]
      constructor
      · intro alive _ same
        rw [(keyOf_lost_iff b).mpr same] at alive
        exact alive rfl
      · intro other
        exact onKey_ne_lost result fun lost => other rfl ((keyOf_lost_iff b).mp lost)

/-- The code of a byte is its own and not negative for the bytes below 128. -/
theorem cprGetch_distinct_iff (b : UInt8) :
    (0 ≤ cprGetch (some b) ∧ ∀ other, cprGetch (some other) = cprGetch (some b) → other = b) ↔
      b < 128 := by
  have low {c : UInt8} (ascii : c < 128) : cprGetch (some c) = c.toNat := if_pos ascii
  have high {c : UInt8} (extended : ¬ c < 128) : cprGetch (some c) < 0 := by
    have small := c.toNat_lt
    have code : cprGetch (some c) = (c.toNat : Int) - 256 := if_neg extended
    omega
  constructor
  · rintro ⟨positive, -⟩
    by_contra extended
    exact absurd (high extended) (by omega)
  · intro ascii
    rw [low ascii]
    refine ⟨Int.natCast_nonneg _, fun other same => ?_⟩
    by_cases plain : other < 128
    · rw [low plain] at same
      exact UInt8.toNat_inj.mp (Int.ofNat.inj same)
    · have negative := high plain
      omega

theorem startLine_ne_lost (text : Memory UInt8) (limit : Nat) :
    (startLine text limit).result ≠ some (-1) := by
  unfold startLine
  split
  · exact fun lost => absurd (Option.some.inj lost) (by decide)
  · exact @again_ne_lost limit ⟨text.set 0 0, 0, false, [], none⟩ rfl

/-- Received data is never taken for an error as long as no byte 255 comes into an open
line, and a code tells its byte when the byte is below 128. -/
theorem received_data_iff (limit : Nat) (echo : Bool) (text : Memory UInt8)
    (bytes : List UInt8) (b : UInt8) :
    ((∀ n, ((bytes.take n).foldl (deliver limit echo) (startLine text limit)).result ≠
        some (-1)) ∧
      0 ≤ cprGetch (some b) ∧
        ∀ other, cprGetch (some other) = cprGetch (some b) → other = b) ↔
      Throughout (deliver limit echo) (fun s b => s.result = none → b ≠ 255)
        (startLine text limit) bytes ∧
      b < 128 := by
  refine and_congr ?_ (cprGetch_distinct_iff b)
  have single (s : Getline) (b : UInt8) (_ : True) (here : s.result ≠ some (-1)) :=
    @deliver_lost_iff limit echo s here b
  exact along_iff_take.symm.trans (along_iff_throughout (P := fun s : Getline => s.result ≠ some (-1))
    (fun _ => True) (fun _ _ _ _ _ => trivial) single trivial
    (startLine_ne_lost text limit) bytes)

/-- The byte 255 at the start of a line is returned as a failure. -/
theorem cprGetline_255 :
    (getline 80 true (fun _ => 0) [some 97, some 255]).result = some (-1) ∧
      cprGetch (some 255) = cprGetch none := by
  decide +kernel

end CprFormal.Socket.Codes
