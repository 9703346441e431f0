import CprFormal.Socket.Model

/-!
# The limit of `cpr_putline`

The line `if (max) max = 256;` gives the default limit to the callers that have a limit of
their own, and leaves zero, which `cpr_strlen` takes for one.
-/

namespace CprFormal.Socket.Putline

open CprFormal.Socket.Model CprFormal.Strchar.Strlen

/-- What `cpr_putline` returns, for what `send` returns. -/
def cprPutlineResult (send : List UInt8 → Int) (text : CString) (limit : Nat) : Int :=
  let limit := if limit ≠ 0 then 256 else limit
  let size := cprStrlen text.char limit
  if size = 0 then 0 else send (text.bytes.take size)

/-- A socket whose `send` takes everything. -/
def sendAll (bytes : List UInt8) : Int := bytes.length

/-- The limit that is meant: 256 is the default. -/
def bound (limit : Nat) : Nat := if limit = 0 then 256 else limit

/-- The first bytes up to the limit are sent, and their number is returned. -/
def Sends (text : CString) (limit : Nat) : Prop :=
  cprPutline text limit = text.bytes.take (min text.length (bound limit)) ∧
    cprPutlineResult sendAll text limit = (cprPutline text limit).length

/-- The limit in use. -/
def used (limit : Nat) : Nat := if limit = 0 then 1 else 256

theorem strlen_used (text : CString) (limit : Nat) :
    cprStrlen text.char (if limit ≠ 0 then 256 else limit) = min text.length (used limit) := by
  rw [cprStrlen_char]
  unfold used
  by_cases zero : limit = 0
  · rw [if_neg (not_not.mpr zero), if_pos zero, zero]
    rfl
  · rw [if_pos zero, if_neg zero]
    rfl

theorem cprPutline_eq (text : CString) (limit : Nat) :
    cprPutline text limit = text.bytes.take (min text.length (used limit)) := by
  rw [cprPutline_take, strlen_used]

/-- What is sent is what is returned, whatever the limit. -/
theorem result_eq_length (text : CString) (limit : Nat) :
    cprPutlineResult sendAll text limit = (cprPutline text limit).length := by
  rw [cprPutline_eq]
  unfold cprPutlineResult
  dsimp only
  rw [strlen_used]
  split
  · rename_i none_counted
    rw [none_counted, List.take_zero]
    rfl
  · rfl

/-- `cpr_putline` keeps to its limit when the limit is 256, or the text is within both
the limit and 256, or there is no limit and no second character. -/
theorem cprPutline_sends_iff (text : CString) (limit : Nat) :
    Sends text limit ↔
      limit = 256 ∨ (0 < limit ∧ text.length ≤ min limit 256) ∨
        (limit = 0 ∧ text.length ≤ 1) := by
  unfold Sends
  rw [and_iff_left (result_eq_length text limit), cprPutline_eq, List.take_eq_take_iff]
  unfold used bound CString.length
  split
  · omega
  · omega

/-- Both characters are sent where one is allowed, and one where both are. -/
theorem cprPutline_two :
    cprPutline ⟨[97, 98], by simp⟩ 1 = [97, 98] ∧ cprPutline ⟨[97, 98], by simp⟩ 0 = [97] ∧
      ¬ Sends ⟨[97, 98], by simp⟩ 1 ∧ ¬ Sends ⟨[97, 98], by simp⟩ 0 := by
  refine ⟨by decide, by decide, ?_, ?_⟩
  · rintro ⟨sent, -⟩
    exact absurd sent (by decide)
  · rintro ⟨sent, -⟩
    exact absurd sent (by decide)

end CprFormal.Socket.Putline
