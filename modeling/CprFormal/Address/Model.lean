import CprFormal.Strchar.Strlen

/-!
# The socket addresses of `address.c`

A store is a `struct sockaddr_storage` of 128 bytes: the family, the port, which `sin_port`
and `sin6_port` share, and the bytes behind them.  `inet_pton`, `inet_ntop` and the list of
`getifaddrs` come from outside; the allocations are taken to succeed.
-/

namespace CprFormal.Address.Model

open CprFormal.Strchar.Strlen

abbrev Bytes (n : Nat) : Type := Fin n → UInt8

def afUnspec : UInt16 := 0

def afInet : UInt16 := 2

def afInet6 : UInt16 := 10

/-- A family as an `int`. -/
def promoted (family : UInt16) : Int := family.toNat

/-- `htons` of a machine that keeps the low byte first. -/
def htons (port : UInt16) : UInt16 := port <<< 8 ||| port >>> 8

/-- `sockaddr_t` -/
@[ext]
structure SockaddrT where
  ssFamily : UInt16
  port : UInt16
  data : Bytes 124

namespace SockaddrT

/-- What `cpr_memset` leaves. -/
def zero : SockaddrT := ⟨0, 0, fun _ => 0⟩

/-- `n` of the bytes behind the port. -/
def field (store : SockaddrT) (offset n : Nat) (fits : offset + n ≤ 124) : Bytes n :=
  fun i => store.data ⟨offset + i, by omega⟩

def setField {n : Nat} (store : SockaddrT) (offset : Nat) (bytes : Bytes n) : SockaddrT :=
  { store with data := fun i =>
      if h : offset ≤ i ∧ i < offset + n then bytes ⟨i - offset, by omega⟩ else store.data i }

def sinAddr (store : SockaddrT) : Bytes 4 := store.field 0 4 (by decide)

/-- `sin6_addr` stands behind `sin6_flowinfo`. -/
def sin6Addr (store : SockaddrT) : Bytes 16 := store.field 4 16 (by decide)

def setSinAddr (store : SockaddrT) (addr : Bytes 4) : SockaddrT := store.setField 0 addr

def setSin6Addr (store : SockaddrT) (addr : Bytes 16) : SockaddrT := store.setField 4 addr

end SockaddrT

/-- `cpr_socklen` -/
def cprSocklen (addr : SockaddrT) : Nat :=
  if addr.ssFamily = afInet then 16 else if addr.ssFamily = afInet6 then 28 else 0

/-- `cpr_memcpy(store, sizeof(struct sockaddr_storage), addr, size)` -/
def cprMemcpy (store addr : SockaddrT) (size : Nat) : SockaddrT where
  ssFamily := if 2 ≤ size then addr.ssFamily else store.ssFamily
  port := if 4 ≤ size then addr.port else store.port
  data i := if 4 + i < size then addr.data i else store.data i

/-- `cpr_addport`: both tests are for `AF_INET`. -/
def cprAddport (addr : SockaddrT) (port : UInt16) : Bool × SockaddrT :=
  if addr.ssFamily = afInet then (true, { addr with port := htons port })
  else if addr.ssFamily = afInet then (true, { addr with port := htons port })
  else (false, addr)

/-- The conversions of the C library; a text that `inet_pton` does not accept leaves the
address as it was. -/
structure Libc where
  inetPton4 : CString → Option (Bytes 4)
  inetPton6 : CString → Option (Bytes 16)
  inetNtop4 : Bytes 4 → CString
  inetNtop6 : Bytes 16 → CString

/-- What `inet_ntop` returns for a buffer of `size` bytes. -/
def inetNtop (text : CString) (size : Nat) : Option CString :=
  if text.length < size then some text else none

/-- `INET6_ADDRSTRLEN + 1` -/
def sizeofBuf : Nat := 47

/-- `strchr(text, c) != NULL` for a byte that is no NUL. -/
def strchr (text : CString) (c : UInt8) : Bool := text.bytes.contains c

/-- `cpr_strdup` -/
def cprStrdup (text : CString) (max : Nat) : CString where
  bytes := text.bytes.take (cprStrlen text.char max)
  nonNul b member := text.nonNul b (List.mem_of_mem_take member)

/-- `cpr_setaddr` -/
def cprSetaddr (libc : Libc) (addr : Option CString) (port : UInt16) : Int × SockaddrT :=
  match addr with
  | none => (promoted afUnspec, .zero)
  | some addr =>
      if addr.bytes = [] then (promoted afUnspec, .zero)
      else
        let store :=
          if strchr addr 46 then
            match libc.inetPton4 addr with
            | some bytes =>
                { SockaddrT.zero.setSinAddr bytes with ssFamily := afInet, port := htons port }
            | none => .zero
          else if strchr addr 58 then
            match libc.inetPton6 addr with
            | some bytes =>
                { SockaddrT.zero.setSin6Addr bytes with ssFamily := afInet6, port := htons port }
            | none => .zero
          else .zero
        (promoted store.ssFamily, store)

theorem star_nonNul : ∀ b ∈ [(42 : UInt8)], b ≠ 0 := by
  simp

/-- `cpr_getaddr` -/
def cprGetaddr (libc : Libc) (store : SockaddrT) : Option CString :=
  if store.ssFamily = afUnspec then some (cprStrdup ⟨[42], star_nonNul⟩ 2)
  else
    let out :=
      if store.ssFamily = afInet then inetNtop (libc.inetNtop4 store.sinAddr) sizeofBuf
      else if store.ssFamily = afInet6 then inetNtop (libc.inetNtop6 store.sin6Addr) sizeofBuf
      else none
    out.map fun out => cprStrdup out sizeofBuf

/-- An entry of the list that `getifaddrs` makes. -/
structure Iface where
  ifaName : CString
  ifaAddr : Option SockaddrT

/-- The loop over the interfaces: the first address of the family under the name. -/
def findIface (list : List Iface) (family : Int) (name : CString) : Option SockaddrT :=
  list.findSome? fun node => node.ifaAddr.filter fun addr =>
    decide (promoted addr.ssFamily = family) && decide (node.ifaName = name)

/-- The names that are written as an address; `true` when `inet_pton` accepts it. -/
def numericBind (libc : Libc) (name : CString) (family : Int) (port : UInt16) : Bool × SockaddrT :=
  if family = promoted afInet ∧ strchr name 46 then
    let store := (cprAddport { SockaddrT.zero with ssFamily := afInet } port).2
    match libc.inetPton4 name with
    | some addr => (true, store.setSinAddr addr)
    | none => (false, store)
  else if family = promoted afInet6 ∧ strchr name 58 then
    let store := (cprAddport { SockaddrT.zero with ssFamily := afInet6 } port).2
    match libc.inetPton6 name with
    | some addr => (true, store.setSin6Addr addr)
    | none => (false, store)
  else (false, .zero)

/-- The search for an interface; no list stands for a `getifaddrs` that fails. -/
def ifaceBind (interfaces : Option (List Iface)) (store : SockaddrT) (name : CString)
    (family : Int) (port : UInt16) : Bool × SockaddrT :=
  match interfaces with
  | none => (false, store)
  | some list =>
      match findIface list family name with
      | some addr => (true, (cprAddport (cprMemcpy store addr (cprSocklen addr)) port).2)
      | none => (false, store)

/-- `cpr_getbind` -/
def cprGetbind (libc : Libc) (interfaces : Option (List Iface)) (name : Option CString)
    (family : Int) (port : UInt16) : Bool × SockaddrT :=
  match name with
  | none => (false, .zero)
  | some name =>
      if (family ≠ promoted afInet ∧ family ≠ promoted afInet6) ∨ name.bytes = [] then (false, .zero)
      else if name.bytes = [42] then
        (true, (cprAddport { SockaddrT.zero with ssFamily := .ofInt family } port).2)
      else
        let numeric := numericBind libc name family port
        if numeric.1 then numeric else ifaceBind interfaces numeric.2 name family port

end CprFormal.Address.Model
