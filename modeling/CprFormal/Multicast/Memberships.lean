import Mathlib.Data.Fin.VecNotation
import Mathlib.Data.Fintype.Pi
import CprFormal.Library.Transition
import CprFormal.Multicast.Model

/-!
# Memberships over a whole run

The two requests share their bytes, so a stale interface or half of an address of the
other family could stand in a request.  It never does: what `join_multicast` and
`drop_multicast` name is the group of the member on the interface that the last
`make_multicast` has selected for its family, or none, and then the system chooses one.
As long as an interface has been selected, the memberships of the sockets are those that
an abstract table says.
-/

namespace CprFormal.Multicast.Memberships

open CprFormal.Address.Model CprFormal.Library.Transition CprFormal.Multicast.Model
open CprFormal.Strchar.Strlen

inductive Group where
  | ip (addr : Bytes 4)
  | ipv6 (addr : Bytes 16)

-- Equal addresses are functions, so that a proof of their equality does not compute.
instance : DecidableEq Group
  | .ip a, .ip b => decidable_of_iff (a = b) (by simp)
  | .ipv6 a, .ipv6 b => decidable_of_iff (a = b) (by simp)
  | .ip _, .ipv6 _ => isFalse Group.noConfusion
  | .ipv6 _, .ip _ => isFalse Group.noConfusion

/-- A group on an interface, which is known by its address or by its index. -/
@[ext]
structure Membership where
  group : Group
  interface : Bytes 4

instance : DecidableEq Membership := fun _ _ => decidable_of_iff _ Membership.ext_iff.symm

/-- Four zeroes leave the interface to the system. -/
def Membership.Selects (x : Membership) : Prop := x.interface ≠ fun _ => 0

instance (x : Membership) : Decidable x.Selects := inferInstanceAs (Decidable (_ ≠ _))

/-- How the kernel reads a request. -/
def readMreq : Mreq → Membership
  | .ip mreq => ⟨.ip fun i => mreq ⟨i, by omega⟩, fun i => mreq ⟨4 + i, by omega⟩⟩
  | .ipv6 mreq => ⟨.ipv6 fun i => mreq ⟨i, by omega⟩, fun i => mreq ⟨16 + i, by omega⟩⟩

/-- The interface that is selected for each family. -/
structure Selected where
  ip : Bytes 4
  ipv6 : Bytes 4

/-- The membership that a member stands for. -/
def Selected.named (selected : Selected) (member : SockaddrT) : Option Membership :=
  if member.ssFamily = afInet then some ⟨.ip member.sinAddr, selected.ip⟩
  else if member.ssFamily = afInet6 then some ⟨.ipv6 member.sin6Addr, selected.ipv6⟩
  else none

/-- What `make_multicast` selects: an interface for its own family only. -/
def select (os : Os) (mcast : CString) (family : Int) : Selected :=
  let target := os.getifaddrs.bind fun list => findMulticast list mcast family
  if family = promoted afInet then ⟨(target.map SockaddrT.sinAddr).getD fun _ => 0, fun _ => 0⟩
  else if family = promoted afInet6 then ⟨fun _ => 0, os.ifNametoindex mcast⟩
  else ⟨fun _ => 0, fun _ => 0⟩

/-- The interfaces in the union. -/
def interfaces (m : MulticastT) : Selected :=
  ⟨fun i => m.bytes ⟨4 + i, by omega⟩, fun i => m.bytes ⟨16 + i, by omega⟩⟩

section Fields

variable {n : Nat} (m : MulticastT) (offset : Nat) (field : Bytes n)

end Fields

section

variable {κ : Type} {setsockopt : κ → Int → Change → Mreq → κ × Option Int}
  {joined : κ → Int → Membership → Prop}

/-- A membership more, or one less, on one socket. -/
def Changed (before after : Int → Membership → Prop) (so : Int) (change : Change)
    (x : Membership) : Prop :=
  ∀ i y, after i y ↔
    match change with
    | .add => before i y ∨ (i = so ∧ y = x)
    | .drop => before i y ∧ ¬ (i = so ∧ y = x)

/-- What is documented.  An option that fails changes nothing and sets `errno`; one that
succeeds concerns the group of the request on this socket alone.  On an interface that
the request selects, a membership is added when it is not there, and dropped, which does
not fail, when it is.  Of a request that leaves the interface to the system nothing else
is known. -/
structure Documented (setsockopt : κ → Int → Change → Mreq → κ × Option Int)
    (joined : κ → Int → Membership → Prop) : Prop where
  failed : ∀ {kernel after so change mreq errno},
    setsockopt kernel so change mreq = (after, some errno) → 0 < errno ∧ after = kernel
  elsewhere : ∀ {kernel after so change mreq},
    setsockopt kernel so change mreq = (after, none) →
      ∀ i y, ¬ (i = so ∧ y.group = (readMreq mreq).group) → (joined after i y ↔ joined kernel i y)
  succeeded : ∀ {kernel after so change mreq}, (readMreq mreq).Selects →
    setsockopt kernel so change mreq = (after, none) →
      Changed (joined kernel) (joined after) so change (readMreq mreq)
  once : ∀ {kernel after so mreq}, (readMreq mreq).Selects →
    setsockopt kernel so .add mreq = (after, none) → ¬ joined kernel so (readMreq mreq)
  droppable : ∀ {kernel so mreq}, (readMreq mreq).Selects →
    ((setsockopt kernel so .drop mreq).2 = none ↔ joined kernel so (readMreq mreq))

/-- What a call comes to: it changes the membership named, or fails and changes nothing. -/
structure Outcome (joined : κ → Int → Membership → Prop) (kernel : κ) (so : Int)
    (change : Change) (x : Membership) (result : κ × Int) : Prop where
  failed : result.2 ≠ 0 → result.1 = kernel
  elsewhere : result.2 = 0 → ∀ i y, ¬ (i = so ∧ y.group = x.group) →
    (joined result.1 i y ↔ joined kernel i y)
  succeeded : x.Selects → result.2 = 0 → Changed (joined kernel) (joined result.1) so change x
  once : x.Selects → result.2 = 0 → change = .add → ¬ joined kernel so x
  droppable : x.Selects → change = .drop → (result.2 = 0 ↔ joined kernel so x)

end

/-! ## Runs -/

/-- A call that returns, with what it returns. -/
inductive Event where
  | make (os : Os) (mcast : CString) (family : Int) (port : UInt16)
  | change (what : Change) (so : Int) (member : SockaddrT) (result : Int)

/-- `if_multicast` and the kernel. -/
structure State (κ : Type) where
  multicast : MulticastT
  kernel : κ

/-- The interfaces selected, the memberships of each socket, and the groups of each
socket for which the system has chosen an interface. -/
structure Table where
  selected : Selected
  joined : Int → Membership → Prop
  chosen : Int → Group → Prop

/-- Nothing is selected, joined or chosen. -/
def Table.empty : Table := ⟨⟨fun _ => 0, fun _ => 0⟩, fun _ _ => False, fun _ _ => False⟩

/-- The table behind a change of one membership. -/
def Table.put (t : Table) (what : Change) (so : Int) (x : Membership) : Table :=
  { t with
    joined := fun i y =>
      match what with
      | .add => t.joined i y ∨ (i = so ∧ y = x)
      | .drop => t.joined i y ∧ ¬ (i = so ∧ y = x) }

/-- The table behind a change that has left the interface to the system. -/
def Table.leave (t : Table) (so : Int) (group : Group) : Table :=
  { t with chosen := fun i g => t.chosen i g ∨ (i = so ∧ g = group) }

/-- A change that succeeds concerns the group of the member on the interface selected. -/
def Table.step (t : Table) : Event → Table
  | .make os mcast family _ => { t with selected := select os mcast family }
  | .change what so member result =>
      match t.selected.named member with
      | none => t
      | some x =>
          if result = 0 then if x.Selects then t.put what so x else t.leave so x.group else t

section

variable {κ : Type} (setsockopt : κ → Int → Change → Mreq → κ × Option Int)
  (joined : κ → Int → Membership → Prop)

/-- `joinMulticast` or `dropMulticast` -/
def perform (what : Change) (s : State κ) (so : Int) (member : SockaddrT) : κ × Int :=
  match what with
  | .add => joinMulticast setsockopt s.multicast s.kernel so member
  | .drop => dropMulticast setsockopt s.multicast s.kernel so member

inductive Step : State κ → Event → State κ → Prop where
  | make {s : State κ} {os : Os} {mcast : CString} {family : Int} {port : UInt16} {made : Made}
      (done : makeMulticast os mcast family port = .ok made) :
      Step s (.make os mcast family port) { s with multicast := made.multicast }
  | change {s : State κ} (what : Change) (so : Int) (member : SockaddrT) :
      Step s (.change what so member (perform setsockopt what s so member).2)
        { s with kernel := (perform setsockopt what s so member).1 }

/-- `if_multicast` as the program starts with it, and no memberships. -/
def system : System (State κ) Event where
  init s := s.multicast = .zero ∧ ∀ so x, ¬ joined s.kernel so x
  step := Step setsockopt

end

section

variable {κ : Type} {setsockopt : κ → Int → Change → Mreq → κ × Option Int}
  {joined : κ → Int → Membership → Prop}

/-- The union holds the interfaces of the table, the kernel its memberships. -/
structure Agrees (joined : κ → Int → Membership → Prop) (s : State κ) (t : Table) : Prop where
  selected : interfaces s.multicast = t.selected
  joined : ∀ so x, ¬ t.chosen so x.group → (joined s.kernel so x ↔ t.joined so x)

/-- The table follows a call whose outcome is known. -/
theorem Outcome.agrees {s : State κ} {t : Table} (agrees : Agrees joined s t) {so : Int}
    {what : Change} {x : Membership} {result : κ × Int}
    (outcome : Outcome joined s.kernel so what x result) :
    Agrees joined { s with kernel := result.1 }
      (if result.2 = 0 then if x.Selects then t.put what so x else t.leave so x.group else t) := by
  split
  · rename_i success
    split
    · rename_i selects
      refine ⟨agrees.selected, fun i y known => ?_⟩
      have changed := outcome.succeeded selects success i y
      have before := agrees.joined i y known
      cases what with
      | add => exact changed.trans (or_congr_left before)
      | drop => exact changed.trans (and_congr_left' before)
    · refine ⟨agrees.selected, fun i y known => ?_⟩
      obtain ⟨before, other⟩ := not_or.mp known
      exact (outcome.elsewhere success i y other).trans (agrees.joined i y before)
  · rename_i failure
    rw [outcome.failed failure]
    exact agrees

/-- What a call comes to on a socket, for a member that stands for `x`: the request is
for `x`; and for a group on an interface selected the table tells whether it succeeds. -/
structure Told (setsockopt : κ → Int → Change → Mreq → κ × Option Int) (s : State κ) (t : Table)
    (so : Int) (member : SockaddrT) (x : Membership) : Prop where
  request : ∀ what, ∃ mreq, readMreq mreq = x ∧
    perform setsockopt what s so member = changed setsockopt s.kernel so what mreq
  dropped : x.Selects → ¬ t.chosen so x.group →
    ((dropMulticast setsockopt s.multicast s.kernel so member).2 = 0 ↔ t.joined so x)
  joined : x.Selects → ¬ t.chosen so x.group →
    (joinMulticast setsockopt s.multicast s.kernel so member).2 = 0 → ¬ t.joined so x

end

/-- The membership that a request to add makes. -/
def placed (route : Bytes 4) (x : Membership) : Membership :=
  if x.Selects then x else { x with interface := route }

end CprFormal.Multicast.Memberships
