import CprFormal.Address.Model

/-!
# The multicast sockets of `multicast.c`

The POSIX build.  `if_multicast` is a union of the requests of both families; what
`make_multicast` asks of the system is answered from outside, and `setsockopt` changes the
state of the kernel.
-/

namespace CprFormal.Multicast.Model

open CprFormal.Address.Model CprFormal.Strchar.Strlen

/-- `multicast_t`: `struct ip_mreq` of 8 bytes over `struct ipv6_mreq` of 20. -/
@[ext]
structure MulticastT where
  bytes : Bytes 20

namespace MulticastT

/-- What `cpr_memset` leaves. -/
def zero : MulticastT := ⟨fun _ => 0⟩

def setField {n : Nat} (m : MulticastT) (offset : Nat) (field : Bytes n) : MulticastT where
  bytes i := if h : offset ≤ i ∧ i < offset + n then field ⟨i - offset, by omega⟩ else m.bytes i

def setImrMultiaddr (m : MulticastT) (addr : Bytes 4) : MulticastT := m.setField 0 addr

def setImrInterface (m : MulticastT) (addr : Bytes 4) : MulticastT := m.setField 4 addr

def setIpv6mrMultiaddr (m : MulticastT) (addr : Bytes 16) : MulticastT := m.setField 0 addr

def setIpv6mrInterface (m : MulticastT) (index : Bytes 4) : MulticastT := m.setField 16 index

/-- The first `n` bytes. -/
def first (m : MulticastT) (n : Nat) (fits : n ≤ 20) : Bytes n :=
  fun i => m.bytes ⟨i, by omega⟩

end MulticastT

/-- An entry of the list that `getifaddrs` makes, with its flags. -/
structure Ifaddrs extends Iface where
  ifaFlags : UInt32

/-- `IFF_MULTICAST` -/
def iffMulticast : UInt32 := 0x1000

/-- `find_multicast`: the address of the entry it returns. -/
def findMulticast : List Ifaddrs → CString → Int → Option SockaddrT
  | [], _, _ => none
  | node :: next, iface, family =>
      let addr :=
        if node.ifaName = iface ∧ node.ifaFlags &&& iffMulticast ≠ 0 then node.ifaAddr else none
      match addr with
      | none => findMulticast next iface family
      | some addr =>
          if promoted addr.ssFamily = family then some addr else findMulticast next iface family

/-- What the system answers to `make_multicast`. -/
structure Os where
  getifaddrs : Option (List Ifaddrs)
  socket : Option Nat
  reuseaddr : Bool
  bind : SockaddrT → Bool
  ifNametoindex : CString → Bytes 4
  multicastIf : Bool

/-- What `make_multicast` leaves: the socket it returns, `if_multicast`, and the address
that the socket is bound to. -/
structure Made where
  sock : Nat
  multicast : MulticastT
  bound : Option SockaddrT

/-- `make_multicast`; the error is the code that the process exits with. -/
def makeMulticast (os : Os) (mcast : CString) (family : Int) (port : UInt16) :
    Except Int Made :=
  match os.getifaddrs with
  | none => .error (-1)
  | some list =>
      match findMulticast list mcast family with
      | none => .error (-2)
      | some target =>
          match os.socket with
          | none => .error (-3)
          | some sock =>
              if os.reuseaddr = false then .error (-4)
              else if family = promoted afInet then
                let mcaddr := { SockaddrT.zero with ssFamily := afInet, port := htons port }
                if os.bind mcaddr = false then .error (-5)
                else if os.multicastIf = false then .error (-6)
                else .ok ⟨sock, MulticastT.zero.setImrInterface target.sinAddr, some mcaddr⟩
              else if family = promoted afInet6 then
                let mcaddr6 := { SockaddrT.zero with ssFamily := afInet6, port := htons port }
                if os.bind mcaddr6 = false then .error (-5)
                else if os.multicastIf = false then .error (-6)
                else .ok ⟨sock, MulticastT.zero.setIpv6mrInterface (os.ifNametoindex mcast),
                  some mcaddr6⟩
              else .ok ⟨sock, .zero, none⟩

/-- `IP_ADD_MEMBERSHIP` and `IPV6_ADD_MEMBERSHIP`, or the options that drop. -/
inductive Change where
  | add
  | drop
  deriving DecidableEq

/-- The bytes that `setsockopt` is given, at the level of their family. -/
inductive Mreq where
  | ip (mreq : Bytes 8)
  | ipv6 (mreq : Bytes 20)

def ebadf : Int := 9

def eaiFamily : Int := -6

section

variable {κ : Type} (setsockopt : κ → Int → Change → Mreq → κ × Option Int)

/-- `setsockopt(...) == -1 ? errno : 0` -/
def changed (kernel : κ) (so : Int) (change : Change) (mreq : Mreq) : κ × Int :=
  match setsockopt kernel so change mreq with
  | (kernel, none) => (kernel, 0)
  | (kernel, some errno) => (kernel, errno)

/-- The bodies of `join_multicast` and `drop_multicast`, which ask for a change; the copy of
`if_multicast` is local. -/
def changeMulticast (change : Change) (ifMulticast : MulticastT) (kernel : κ) (so : Int)
    (member : SockaddrT) : κ × Int :=
  let multicast := ifMulticast
  if so < 0 then (kernel, ebadf)
  else if member.ssFamily = afInet then
    let multicast := multicast.setImrMultiaddr member.sinAddr
    changed setsockopt kernel so change (.ip (multicast.first 8 (by decide)))
  else if member.ssFamily = afInet6 then
    let multicast := multicast.setIpv6mrMultiaddr member.sin6Addr
    changed setsockopt kernel so change (.ipv6 (multicast.first 20 (by decide)))
  else (kernel, eaiFamily)

/-- `join_multicast` -/
def joinMulticast (ifMulticast : MulticastT) (kernel : κ) (so : Int) (member : SockaddrT) :
    κ × Int :=
  changeMulticast setsockopt .add ifMulticast kernel so member

/-- `drop_multicast` -/
def dropMulticast (ifMulticast : MulticastT) (kernel : κ) (so : Int) (member : SockaddrT) :
    κ × Int :=
  changeMulticast setsockopt .drop ifMulticast kernel so member

end

end CprFormal.Multicast.Model
