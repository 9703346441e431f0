import CprFormal.Address.Presentation

/-!
# The text of an address read back

`cpr_setaddr` takes every text with a dot for an IPv4 address.  The text of an IPv6 address
has one when the C library writes the last bytes in dotted decimal, so that such an address
is not read back.
-/

namespace CprFormal.Address.RoundTrip

open CprFormal.Address.Model CprFormal.Address.Presentation
open CprFormal.Strchar.Strlen

/-- What is known of `inet_pton` and `inet_ntop`; the IPv6 addresses in `mixed` are written
with their last bytes in dotted decimal. -/
structure Documented (libc : Libc) (mixed : Bytes 16 → Bool) : Prop where
  pton4 : ∀ addr, libc.inetPton4 (libc.inetNtop4 addr) = some addr
  pton6 : ∀ addr, libc.inetPton6 (libc.inetNtop6 addr) = some addr
  dot4 : ∀ addr, 46 ∈ (libc.inetNtop4 addr).bytes
  dot6 : ∀ addr, 46 ∈ (libc.inetNtop6 addr).bytes ↔ mixed addr = true
  colon6 : ∀ addr, 58 ∈ (libc.inetNtop6 addr).bytes
  short4 : ∀ addr, (libc.inetNtop4 addr).length < sizeofBuf
  short6 : ∀ addr, (libc.inetNtop6 addr).length < sizeofBuf

/-- A store with a family, an address, a port and nothing else. -/
structure Plain (store : SockaddrT) (port : UInt16) : Prop where
  port : store.port = htons port
  rest : (store.ssFamily = afInet ∧ ∀ i : Fin 124, 4 ≤ i.val → store.data i = 0) ∨
    (store.ssFamily = afInet6 ∧ ∀ i : Fin 124, i.val < 4 ∨ 20 ≤ i.val → store.data i = 0)

/-- The address of a family as `cpr_setaddr` stores it. -/
def storeOf {n : Nat} (family : UInt16) (offset : Nat) (addr : Bytes n) (port : UInt16) :
    SockaddrT :=
  { SockaddrT.zero.setField offset addr with ssFamily := family, port := htons port }

/-- A store that is zero outside of a field holds that field and nothing else. -/
theorem storeOf_field {store : SockaddrT} {port : UInt16} {offset n : Nat}
    (fits : offset + n ≤ 124) (same : store.port = htons port)
    (rest : ∀ i : Fin 124, i.val < offset ∨ offset + n ≤ i.val → store.data i = 0) :
    store = storeOf store.ssFamily offset (store.field offset n fits) port := by
  refine SockaddrT.ext rfl same (funext fun i => ?_)
  unfold storeOf SockaddrT.setField SockaddrT.field
  dsimp only
  split
  · rename_i inside
    exact congrArg store.data (Fin.ext (Nat.add_sub_cancel' inside.1).symm)
  · exact rest i (by omega)

theorem cprStrdup_short {text : CString} {max : Nat} (short : text.length < max) :
    cprStrdup text max = text := by
  refine CString.ext (List.take_of_length_le ?_)
  rw [cprStrlen_char]
  unfold CString.length at *
  omega

theorem strdup_ntop {text : CString} (short : text.length < sizeofBuf) :
    (inetNtop text sizeofBuf).map (fun out => cprStrdup out sizeofBuf) = some text := by
  unfold inetNtop
  rw [if_pos short, Option.map_some, cprStrdup_short short]

section Texts

variable {libc : Libc} {mixed : Bytes 16 → Bool} {store : SockaddrT} {text : CString}
  {port : UInt16}

theorem getaddr_inet (documented : Documented libc mixed) (v4 : store.ssFamily = afInet) :
    cprGetaddr libc store = some (libc.inetNtop4 store.sinAddr) := by
  unfold cprGetaddr
  rw [v4, if_neg (by decide)]
  exact strdup_ntop (documented.short4 _)

theorem getaddr_inet6 (documented : Documented libc mixed) (v6 : store.ssFamily = afInet6) :
    cprGetaddr libc store = some (libc.inetNtop6 store.sin6Addr) := by
  unfold cprGetaddr
  rw [v6, if_neg (by decide)]
  exact strdup_ntop (documented.short6 _)

/-- With a dot the text is an IPv4 address or nothing. -/
theorem setaddr_dot (dot : 46 ∈ text.bytes) :
    cprSetaddr libc (some text) port =
      match libc.inetPton4 text with
      | some addr => (promoted afInet, storeOf afInet 0 addr port)
      | none => (promoted afUnspec, .zero) := by
  have found : strchr text 46 = true := List.contains_iff_mem.mpr dot
  unfold cprSetaddr
  dsimp only
  rw [if_neg (List.ne_nil_of_mem dot), if_pos found]
  cases libc.inetPton4 text with
  | none => rfl
  | some addr => rfl

theorem setaddr_colon (noDot : 46 ∉ text.bytes) (colon : 58 ∈ text.bytes) :
    cprSetaddr libc (some text) port =
      match libc.inetPton6 text with
      | some addr => (promoted afInet6, storeOf afInet6 4 addr port)
      | none => (promoted afUnspec, .zero) := by
  have missing : strchr text 46 ≠ true := fun found => noDot (List.contains_iff_mem.mp found)
  have found : strchr text 58 = true := List.contains_iff_mem.mpr colon
  unfold cprSetaddr
  dsimp only
  rw [if_neg (List.ne_nil_of_mem colon), if_neg missing, if_pos found]
  cases libc.inetPton6 text with
  | none => rfl
  | some addr => rfl

/-- No text with a dot gives an IPv6 address. -/
theorem setaddr_dot_family (dot : 46 ∈ text.bytes) :
    (cprSetaddr libc (some text) port).1 ≠ promoted afInet6 := by
  rw [setaddr_dot dot]
  cases libc.inetPton4 text with
  | none => exact (by decide : promoted afUnspec ≠ promoted afInet6)
  | some addr => exact (by decide : promoted afInet ≠ promoted afInet6)

end Texts

/-- An address is read back from its text exactly when that has no dot or is meant to. -/
theorem address_round_trip_iff {libc : Libc} {mixed : Bytes 16 → Bool}
    (documented : Documented libc mixed) {store : SockaddrT} {port : UInt16}
    (plain : Plain store port) :
    cprSetaddr libc (cprGetaddr libc store) port = (promoted store.ssFamily, store) ↔
      store.ssFamily = afInet ∨ mixed store.sin6Addr = false := by
  rcases plain.rest with ⟨v4, rest⟩ | ⟨v6, rest⟩
  · refine iff_of_true ?_ (.inl v4)
    have whole := @storeOf_field store port 0 4 (by decide) plain.port fun i outside =>
      rest i (by omega)
    rw [v4] at whole
    rw [getaddr_inet documented v4, setaddr_dot (documented.dot4 _), documented.pton4, v4]
    exact congrArg (Prod.mk _) whole.symm
  · have other : store.ssFamily ≠ afInet := by
      rw [v6]
      decide
    rw [getaddr_inet6 documented v6, or_iff_right other]
    have dot := documented.dot6 store.sin6Addr
    cases form : mixed store.sin6Addr with
    | true =>
        refine iff_of_false (fun back => ?_) Bool.true_eq_false.mp
        rw [v6] at back
        exact setaddr_dot_family (dot.mpr form) (congrArg Prod.fst back)
    | false =>
        refine iff_of_true ?_ rfl
        have noDot : 46 ∉ (libc.inetNtop6 store.sin6Addr).bytes := fun here =>
          absurd ((dot.mp here).symm.trans form) Bool.true_eq_false.mp
        have whole := @storeOf_field store port 4 16 (by decide) plain.port rest
        rw [v6] at whole
        rw [setaddr_colon noDot (documented.colon6 _), documented.pton6, v6]
        exact congrArg (Prod.mk _) whole.symm

theorem libc_documented : Documented libc fun addr => decide (Mapped addr) where
  pton4 := parseDotted_dotted
  pton6 := parseAddr_writeAddr
  dot4 := dot_mem_dotted
  dot6 addr := (dot_mem_writeAddr_iff addr).trans decide_eq_true_iff.symm
  colon6 := colon_mem_writeAddr
  short4 addr := Nat.lt_of_le_of_lt (dotted_length addr) (by decide)
  short6 addr := Nat.lt_of_le_of_lt (writeAddr_length addr) (by decide)

/-- The sixteen bytes of an IPv6 address, with a port. -/
def store6 (bytes : List UInt8) (port : UInt16) : SockaddrT :=
  storeOf afInet6 4 (fun i : Fin 16 => bytes.getD i 0) port

theorem store6_plain (bytes : List UInt8) (port : UInt16) : Plain (store6 bytes port) port := by
  refine ⟨rfl, .inr ⟨rfl, fun i outside => ?_⟩⟩
  exact dif_neg (by omega)

/-- `2001:db8:1:2:3:4:5:6` -/
theorem address_round_trip_iff_global :
    let store := store6 [32, 1, 13, 184, 0, 1, 0, 2, 0, 3, 0, 4, 0, 5, 0, 6] 80
    cprSetaddr libc (cprGetaddr libc store) 80 = (promoted store.ssFamily, store) :=
  (address_round_trip_iff libc_documented (store6_plain _ 80)).mpr (.inr (by decide))

/-- `::ffff:1.2.3.4` is taken for an IPv4 address and refused. -/
theorem address_round_trip_mapped :
    let store := store6 [0, 0, 0, 0, 0, 0, 0, 0, 0, 0, 255, 255, 1, 2, 3, 4] 80
    (cprGetaddr libc store).map CString.bytes =
        some [58, 58, 102, 102, 102, 102, 58, 49, 46, 50, 46, 51, 46, 52] ∧
      cprSetaddr libc (cprGetaddr libc store) 80 = (promoted afUnspec, .zero) ∧
      cprSetaddr libc (cprGetaddr libc store) 80 ≠ (promoted store.ssFamily, store) := by
  have refused : cprSetaddr libc
      (cprGetaddr libc (store6 [0, 0, 0, 0, 0, 0, 0, 0, 0, 0, 255, 255, 1, 2, 3, 4] 80)) 80 =
        (promoted afUnspec, .zero) := rfl
  refine ⟨by decide, refused, ?_⟩
  rw [refused]
  intro same
  exact absurd (congrArg Prod.fst same) (by decide)

end CprFormal.Address.RoundTrip
