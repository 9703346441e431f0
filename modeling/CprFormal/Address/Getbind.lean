import CprFormal.Address.Presentation

/-!
# What `cpr_getbind` leaves in the store

The port of an IPv6 address is never set, so a lookup that succeeds has the right one only
when the address already had it.  A name that looks like an address and is none leaves its
family and its port behind when no interface has that name.
-/

namespace CprFormal.Address.Getbind

open CprFormal.Address.Model
open CprFormal.Strchar.Strlen

/-- A lookup that succeeds has the family and the port. -/
def Carries (family : Int) (port : UInt16) (result : Bool × SockaddrT) : Prop :=
  result.1 = true → promoted result.2.ssFamily = family ∧ result.2.port = htons port

/-- A lookup that fails leaves nothing. -/
def Cleared (result : Bool × SockaddrT) : Prop := result.1 = false → result.2 = .zero

/-- A name with the punctuation of an address of the family. -/
def Numeric (name : CString) (family : Int) : Prop :=
  (family = promoted afInet ∧ strchr name 46) ∨ (family = promoted afInet6 ∧ strchr name 58)

/-- A name that is an address of the family. -/
def Literal (libc : Libc) (name : CString) (family : Int) : Prop :=
  (family = promoted afInet ∧ strchr name 46 ∧ (libc.inetPton4 name).isSome) ∨
    (family = promoted afInet6 ∧ strchr name 58 ∧ (libc.inetPton6 name).isSome)

/-- What a name stands for, with the port the address has before `cpr_addport`. -/
inductive Found (libc : Libc) (interfaces : Option (List Iface)) (name : CString)
    (family : Int) : UInt16 → Prop where
  | wildcard (star : name.bytes = [42]) : Found libc interfaces name family 0
  | literal (numeric : Literal libc name family) : Found libc interfaces name family 0
  | interface {list : List Iface} {addr : SockaddrT} (star : name.bytes ≠ [42])
      (numeric : ¬ Literal libc name family) (known : interfaces = some list)
      (found : findIface list family name = some addr) :
      Found libc interfaces name family addr.port

/-- The address of an IPv6 lookup has the port without `cpr_addport`. -/
def PortHeld (libc : Libc) (interfaces : Option (List Iface)) (name : Option CString)
    (family : Int) (port : UInt16) : Prop :=
  family = promoted afInet6 → ∀ text ∈ name, text.bytes ≠ [] →
    ∀ held, Found libc interfaces text family held → held = htons port

/-- A name that looks like an address is one, or an interface has it. -/
def Resolved (libc : Libc) (interfaces : Option (List Iface)) (name : Option CString)
    (family : Int) : Prop :=
  ∀ text ∈ name, Numeric text family → Literal libc text family ∨
    ∃ list ∈ interfaces, ∃ node ∈ list, node.ifaName = text ∧
      ∃ addr ∈ node.ifaAddr, promoted addr.ssFamily = family

theorem cprAddport_apply (addr : SockaddrT) (port : UInt16) :
    (cprAddport addr port).2 =
      { addr with port := if addr.ssFamily = afInet then htons port else addr.port } := by
  unfold cprAddport
  split
  · rfl
  · rfl

variable {libc : Libc} {interfaces : Option (List Iface)} {name : CString} {family : Int}
  {port : UInt16}

theorem findIface_family {list : List Iface} {addr : SockaddrT}
    (found : findIface list family name = some addr) : promoted addr.ssFamily = family := by
  obtain ⟨node, -, here⟩ := List.exists_of_findSome?_eq_some found
  have meets := (Option.filter_eq_some_iff.mp here).2
  exact of_decide_eq_true (Bool.and_eq_true_iff.mp meets).1

/-- An interface is found when one has the name and an address of the family. -/
theorem findIface_isSome_iff {list : List Iface} :
    (findIface list family name).isSome ↔ ∃ node ∈ list, node.ifaName = name ∧
      ∃ addr ∈ node.ifaAddr, promoted addr.ssFamily = family := by
  unfold findIface
  rw [List.findSome?_isSome_iff]
  refine exists_congr fun node => and_congr_right fun _ => ?_
  rw [Option.isSome_filter]
  cases node.ifaAddr with
  | none => simp
  | some addr => simp [and_comm]

theorem promoted_inj {a b : UInt16} : promoted a = promoted b ↔ a = b :=
  Int.natCast_inj.trans UInt16.toNat_inj

theorem inet_ne_inet6 : promoted afInet ≠ promoted afInet6 := by
  decide

theorem Literal.numeric (literal : Literal libc name family) : Numeric name family :=
  literal.imp (fun h => ⟨h.1, h.2.1⟩) fun h => ⟨h.1, h.2.1⟩

theorem literal_inet_iff :
    Literal libc name (promoted afInet) ↔ strchr name 46 ∧ (libc.inetPton4 name).isSome := by
  unfold Literal
  rw [or_iff_left fun other => inet_ne_inet6 other.1, and_iff_right rfl]

theorem literal_inet6_iff :
    Literal libc name (promoted afInet6) ↔ strchr name 58 ∧ (libc.inetPton6 name).isSome := by
  unfold Literal
  rw [or_iff_right fun other => inet_ne_inet6 other.1.symm, and_iff_right rfl]

/-- A numeric name is an address, or leaves its family behind. -/
theorem numericBind_cases (libc : Libc) (name : CString) (family : Int) (port : UInt16) :
    (Literal libc name family ∧ (numericBind libc name family port).1 = true ∧
      promoted (numericBind libc name family port).2.ssFamily = family ∧
      (numericBind libc name family port).2.port =
        if family = promoted afInet then htons port else 0) ∨
    (¬ Literal libc name family ∧ Numeric name family ∧
      (numericBind libc name family port).1 = false ∧
      (numericBind libc name family port).2 ≠ .zero) ∨
    (¬ Literal libc name family ∧ ¬ Numeric name family ∧
      numericBind libc name family port = (false, .zero)) := by
  unfold numericBind
  by_cases v4 : family = promoted afInet ∧ strchr name 46
  · obtain ⟨rfl, dot⟩ := v4
    rw [if_pos ⟨rfl, dot⟩, literal_inet_iff, and_iff_right dot]
    cases libc.inetPton4 name with
    | some addr => exact .inl ⟨rfl, rfl, rfl, rfl⟩
    | none =>
        refine .inr (.inl ⟨Bool.false_ne_true, .inl ⟨rfl, dot⟩, rfl, fun zero => ?_⟩)
        have unset : afInet = 0 := congrArg SockaddrT.ssFamily zero
        exact absurd unset (by decide)
  · rw [if_neg v4]
    by_cases v6 : family = promoted afInet6 ∧ strchr name 58
    · obtain ⟨rfl, colon⟩ := v6
      rw [if_pos ⟨rfl, colon⟩, literal_inet6_iff, and_iff_right colon]
      cases libc.inetPton6 name with
      | some addr => exact .inl ⟨rfl, rfl, rfl, rfl⟩
      | none =>
          refine .inr (.inl ⟨Bool.false_ne_true, .inr ⟨rfl, colon⟩, rfl, fun zero => ?_⟩)
          have unset : afInet6 = 0 := congrArg SockaddrT.ssFamily zero
          exact absurd unset (by decide)
    · rw [if_neg v6]
      have plain : ¬ Numeric name family := fun numeric => numeric.elim v4 v6
      exact .inr (.inr ⟨fun literal => plain literal.numeric, plain, rfl⟩)

/-- The address of an interface is copied with its port, which `cpr_addport` overwrites for
IPv4. -/
theorem ifaceBind_found (store : SockaddrT) {addr : SockaddrT} {list : List Iface}
    (known : family = promoted afInet ∨ family = promoted afInet6)
    (found : findIface list family name = some addr) :
    (ifaceBind (some list) store name family port).1 = true ∧
      promoted (ifaceBind (some list) store name family port).2.ssFamily = family ∧
      (ifaceBind (some list) store name family port).2.port =
        if family = promoted afInet then htons port else addr.port := by
  have same := findIface_family found
  subst same
  have copied : cprMemcpy store addr (cprSocklen addr) =
      { cprMemcpy store addr (cprSocklen addr) with
        ssFamily := addr.ssFamily, port := addr.port } := by
    have long : 4 ≤ cprSocklen addr := by
      unfold cprSocklen
      rcases known with v4 | v6
      · rw [if_pos (promoted_inj.mp v4)]
        decide
      · rw [promoted_inj.mp v6]
        decide
    unfold cprMemcpy
    rw [if_pos (Nat.le_trans (by decide) long), if_pos long]
  unfold ifaceBind
  simp only [found, cprAddport_apply]
  rw [copied]
  simp only [promoted_inj]
  exact ⟨trivial, trivial, trivial⟩

theorem ifaceBind_missing (store : SockaddrT)
    (missing : ∀ list, interfaces = some list → findIface list family name = none) :
    ifaceBind interfaces store name family port = (false, store) := by
  unfold ifaceBind
  cases interfaces with
  | none => rfl
  | some list =>
      dsimp only
      rw [missing list rfl]

/-! ## The whole lookup -/

/-- A name with punctuation is not empty and not the wildcard. -/
theorem Numeric.nonempty (numeric : Numeric name family) : name.bytes ≠ [] ∧ name.bytes ≠ [42] := by
  unfold Numeric strchr at numeric
  constructor
  · intro empty
    rw [empty] at numeric
    exact absurd numeric (by simp)
  · intro star
    rw [star] at numeric
    exact absurd numeric (by simp)

theorem Numeric.known (numeric : Numeric name family) :
    family = promoted afInet ∨ family = promoted afInet6 :=
  numeric.imp And.left And.left

theorem getbind_rejected
    (rejected : ¬ (family = promoted afInet ∨ family = promoted afInet6) ∨ name.bytes = []) :
    cprGetbind libc interfaces (some name) family port = (false, .zero) := by
  unfold cprGetbind
  exact if_pos (rejected.imp_left not_or.mp)

section Accepted

variable (known : family = promoted afInet ∨ family = promoted afInet6)

include known

theorem accepted (nonempty : name.bytes ≠ []) :
    ¬ ((family ≠ promoted afInet ∧ family ≠ promoted afInet6) ∨ name.bytes = []) := by
  rintro (⟨not4, not6⟩ | empty)
  · exact known.elim not4 not6
  · exact nonempty empty

theorem getbind_wildcard (star : name.bytes = [42]) :
    cprGetbind libc interfaces (some name) family port =
      (true, (cprAddport { SockaddrT.zero with ssFamily := .ofInt family } port).2) := by
  unfold cprGetbind
  dsimp only
  rw [if_neg (accepted known (star ▸ List.cons_ne_nil _ _)), if_pos star]

theorem getbind_named (nonempty : name.bytes ≠ []) (star : name.bytes ≠ [42]) :
    cprGetbind libc interfaces (some name) family port =
      if (numericBind libc name family port).1 then numericBind libc name family port
      else ifaceBind interfaces (numericBind libc name family port).2 name family port := by
  unfold cprGetbind
  dsimp only
  rw [if_neg (accepted known nonempty), if_neg star]

/-- A name that stands for an address has its family, and the port as `cpr_addport` leaves
it. -/
theorem getbind_found (nonempty : name.bytes ≠ []) {held : UInt16}
    (found : Found libc interfaces name family held) :
    (cprGetbind libc interfaces (some name) family port).1 = true ∧
      promoted (cprGetbind libc interfaces (some name) family port).2.ssFamily = family ∧
      (cprGetbind libc interfaces (some name) family port).2.port =
        if family = promoted afInet then htons port else held := by
  cases found with
  | wildcard star =>
      rw [getbind_wildcard known star, cprAddport_apply]
      rcases known with rfl | rfl
      · exact ⟨rfl, rfl, rfl⟩
      · exact ⟨rfl, rfl, rfl⟩
  | literal literal =>
      rw [getbind_named known nonempty literal.numeric.nonempty.2]
      rcases numericBind_cases libc name family port with done | ⟨other, -⟩ | ⟨other, -⟩
      · rw [if_pos done.2.1]
        exact done.2
      · exact absurd literal other
      · exact absurd literal other
  | interface star literal list found =>
      subst list
      have failed : (numericBind libc name family port).1 ≠ true := by
        rcases numericBind_cases libc name family port with ⟨done, -⟩ | other | other
        · exact absurd done literal
        · rw [other.2.2.1]
          exact Bool.false_ne_true
        · rw [other.2.2]
          exact Bool.false_ne_true
      rw [getbind_named known nonempty star, if_neg failed]
      exact ifaceBind_found _ known found

/-- A name that stands for nothing leaves the store empty unless it looks like an address. -/
theorem getbind_missing (nonempty : name.bytes ≠ [])
    (missing : ∀ held, ¬ Found libc interfaces name family held) :
    (cprGetbind libc interfaces (some name) family port).1 = false ∧
      ((cprGetbind libc interfaces (some name) family port).2 = .zero ↔
        ¬ Numeric name family) := by
  have star : name.bytes ≠ [42] := fun star => missing 0 (.wildcard star)
  have literal : ¬ Literal libc name family := fun literal => missing 0 (.literal literal)
  have unlisted (list : List Iface) (known : interfaces = some list) :
      findIface list family name = none :=
    Option.eq_none_iff_forall_ne_some.mpr fun addr found =>
      missing addr.port (.interface star literal known found)
  rw [getbind_named known nonempty star, ifaceBind_missing _ unlisted]
  rcases numericBind_cases libc name family port with ⟨done, -⟩ | other | other
  · exact absurd done literal
  · rw [if_neg (by rw [other.2.2.1]; exact Bool.false_ne_true)]
    exact ⟨rfl, iff_of_false other.2.2.2 (not_not_intro other.2.1)⟩
  · rw [other.2.2]
    exact ⟨rfl, iff_of_true rfl other.2.1⟩

end Accepted

/-- The port of an IPv6 lookup is right only when the address already had it. -/
theorem getbind_carries_iff (libc : Libc) (interfaces : Option (List Iface))
    (name : Option CString) (family : Int) (port : UInt16) :
    Carries family port (cprGetbind libc interfaces name family port) ↔
      PortHeld libc interfaces name family port := by
  constructor
  · rintro carries v6 text rfl nonempty held found
    obtain ⟨success, -, left⟩ :=
      @getbind_found libc interfaces text family port (.inr v6) nonempty held found
    rw [if_neg fun v4 => inet_ne_inet6 (v4.symm.trans v6)] at left
    exact left.symm.trans (carries success).2
  · intro holds success
    cases name with
    | none => cases success
    | some text =>
        by_cases known : family = promoted afInet ∨ family = promoted afInet6
        · by_cases nonempty : text.bytes = []
          · rw [getbind_rejected (.inr nonempty)] at success
            cases success
          · by_cases missing : ∀ held, ¬ Found libc interfaces text family held
            · rw [(getbind_missing known nonempty missing).1] at success
              cases success
            · obtain ⟨held, found⟩ := not_forall_not.mp missing
              obtain ⟨-, same, left⟩ :=
                @getbind_found libc interfaces text family port known nonempty held found
              refine ⟨same, left.trans ?_⟩
              rcases known with v4 | v6
              · exact if_pos v4
              · rw [if_neg fun v4 => inet_ne_inet6 (v4.symm.trans v6)]
                exact holds v6 text rfl nonempty held found
        · rw [getbind_rejected (.inl known)] at success
          cases success

/-- Binding to every IPv6 address at port 80 binds to port 0. -/
theorem getbind_wildcard6 :
    cprGetbind Presentation.libc none (some ⟨[42], by simp⟩) (promoted afInet6) 80 =
        (true, { SockaddrT.zero with ssFamily := afInet6 }) ∧
      ¬ Carries (promoted afInet6) 80
        (cprGetbind Presentation.libc none (some ⟨[42], by simp⟩) (promoted afInet6) 80) := by
  refine ⟨rfl, fun carries => ?_⟩
  exact absurd (carries rfl).2 (by decide)

theorem resolved_iff :
    Resolved libc interfaces (some name) family ↔
      (Numeric name family → ∃ held, Found libc interfaces name family held) := by
  constructor
  · intro resolved numeric
    by_cases literal : Literal libc name family
    · exact ⟨0, .literal literal⟩
    · obtain ⟨list, listed, node⟩ := (resolved name rfl numeric).resolve_left literal
      obtain ⟨addr, found⟩ := Option.isSome_iff_exists.mp (findIface_isSome_iff.mpr node)
      exact ⟨addr.port, .interface numeric.nonempty.2 literal listed found⟩
  · intro stands text member numeric
    obtain rfl := Option.mem_some_iff.mp member
    obtain ⟨held, found⟩ := stands numeric
    cases found with
    | wildcard star => exact absurd star numeric.nonempty.2
    | literal literal => exact .inl literal
    | interface star literal listed found =>
        refine .inr ⟨_, listed, findIface_isSome_iff.mp ?_⟩
        rw [found]
        rfl

/-- A failed lookup clears the store unless the name looks like an address of the family. -/
theorem getbind_cleared_iff (libc : Libc) (interfaces : Option (List Iface))
    (name : Option CString) (family : Int) (port : UInt16) :
    Cleared (cprGetbind libc interfaces name family port) ↔
      Resolved libc interfaces name family := by
  cases name with
  | none => exact iff_of_true (fun _ => rfl) nofun
  | some text =>
      rw [resolved_iff]
      by_cases rejected :
          ¬ (family = promoted afInet ∨ family = promoted afInet6) ∨ text.bytes = []
      · rw [getbind_rejected rejected]
        refine iff_of_true (fun _ => rfl) fun numeric => ?_
        exact rejected.elim (absurd numeric.known) fun empty => absurd empty numeric.nonempty.1
      · obtain ⟨known, nonempty⟩ := not_or.mp rejected
        have known := not_not.mp known
        by_cases missing : ∀ held, ¬ Found libc interfaces text family held
        · obtain ⟨failed, empty⟩ :=
            @getbind_missing libc interfaces text family port known nonempty missing
          have nothing : ¬ ∃ held, Found libc interfaces text family held :=
            not_exists.mpr missing
          have cleared : Cleared (cprGetbind libc interfaces (some text) family port) ↔
              ¬ Numeric text family :=
            (forall_prop_of_true failed).trans empty
          rw [cleared]
          exact (imp_iff_not nothing).symm
        · obtain ⟨held, found⟩ := not_forall_not.mp missing
          obtain ⟨success, -⟩ :=
            @getbind_found libc interfaces text family port known nonempty held found
          refine iff_of_true (fun failed => ?_) fun _ => ⟨held, found⟩
          rw [success] at failed
          cases failed

/-- `1.2` is no address and no interface; the store keeps the family and the port. -/
theorem getbind_half_filled :
    cprGetbind Presentation.libc (some []) (some ⟨[49, 46, 50], by simp⟩) (promoted afInet) 80 =
        (false, { SockaddrT.zero with ssFamily := afInet, port := htons 80 }) ∧
      ¬ Cleared (cprGetbind Presentation.libc (some []) (some ⟨[49, 46, 50], by simp⟩)
        (promoted afInet) 80) := by
  have left : cprGetbind Presentation.libc (some []) (some ⟨[49, 46, 50], by simp⟩)
      (promoted afInet) 80 =
        (false, { SockaddrT.zero with ssFamily := afInet, port := htons 80 }) := rfl
  refine ⟨left, fun cleared => ?_⟩
  rw [left] at cleared
  have unset : afInet = 0 := congrArg SockaddrT.ssFamily (cleared rfl)
  exact absurd unset (by decide)

end CprFormal.Address.Getbind
