import CprFormal.Endian.Codecs
import CprFormal.Library.Patches

/-!
# Fields of a packet

A packet is filled with the setters of `endian.h` at offsets of its own and read with the
getters.  A setter is a patch that depends on its value only, so fields that keep apart can
be set in any order, in any mix of widths and byte orders, and are all read back.
-/

namespace CprFormal.Endian.Packets

open CprFormal.Endian.Codecs CprFormal.Endian.Model
open CprFormal.Library.ByteOrder CprFormal.Library.FlatMemory CprFormal.Library.Patches

/-- A value of one of the four widths. -/
inductive Value where
  | u8 (v : UInt8)
  | u16 (v : UInt16)
  | u32 (v : UInt32)
  | u64 (v : UInt64)
  deriving DecidableEq

/-- A field: its offset, its byte order and its value. -/
structure Field where
  offset : Nat
  big : Bool
  value : Value
  deriving DecidableEq

def Value.width : Value → Nat
  | .u8 _ => 1
  | .u16 _ => 2
  | .u32 _ => 4
  | .u64 _ => 8

/-- The setter of a field. -/
def Field.set (f : Field) (ptr : Memory UInt8) : Memory UInt8 :=
  match f.big, f.value with
  | true, .u8 v => beSet8 ptr v
  | false, .u8 v => leSet8 ptr v
  | true, .u16 v => beSet16 ptr v
  | false, .u16 v => leSet16 ptr v
  | true, .u32 v => beSet32 ptr v
  | false, .u32 v => leSet32 ptr v
  | true, .u64 v => beSet64 ptr v
  | false, .u64 v => leSet64 ptr v

/-- The getter of a field, with what it reads in place of the value. -/
def Field.get (f : Field) (ptr : Memory UInt8) : Value :=
  match f.big, f.value with
  | true, .u8 _ => .u8 (beGet8 ptr)
  | false, .u8 _ => .u8 (leGet8 ptr)
  | true, .u16 _ => .u16 (beGet16 ptr)
  | false, .u16 _ => .u16 (leGet16 ptr)
  | true, .u32 _ => .u32 (beGet32 ptr)
  | false, .u32 _ => .u32 (leGet32 ptr)
  | true, .u64 _ => .u64 (beGet64 ptr)
  | false, .u64 _ => .u64 (leGet64 ptr)

/-- A pointer into the packet. -/
def pointer (packet : Memory UInt8) (offset : Nat) : Memory UInt8 := fun i => packet (offset + i)

/-- `set(packet + offset, value)` -/
def put (packet : Memory UInt8) (f : Field) : Memory UInt8 :=
  fun i => if f.offset ≤ i then f.set (pointer packet f.offset) (i - f.offset) else packet i

/-- `get(packet + offset)` -/
def read (packet : Memory UInt8) (f : Field) : Value := f.get (pointer packet f.offset)

/-! ## Setters are patches -/

/-- What a getter and a setter of `n` bytes do. -/
structure Access (n : Nat) {β : Type} (get : Memory UInt8 → β)
    (set : Memory UInt8 → β → Memory UInt8) : Prop where
  get_set : ∀ ptr v, get (set ptr v) = v
  get_congr : ∀ ptr ptr', (∀ i < n, ptr i = ptr' i) → get ptr = get ptr'
  written : ∀ ptr ptr' v, ∀ i < n, set ptr v i = set ptr' v i
  frame : ∀ ptr v i, n ≤ i → set ptr v i = ptr i

theorem access_of_codec {n : Nat} {place : Nat → Nat} {β : Type} {value : β → Nat}
    {get : Memory UInt8 → β} {set : Memory UInt8 → β → Memory UInt8}
    (codec : Codec n place value get set) (inside : ∀ i, i < n → place i < n)
    (involution : ∀ i, i < n → place (place i) = i) (bounded : ∀ v, value v < 256 ^ n)
    (injective : ∀ v w, value v = value w → v = w) : Access n get set where
  get_set := codec.get_set bounded injective
  get_congr ptr ptr' same := by
    apply injective
    rw [codec.reads, codec.reads]
    refine Finset.sum_congr rfl fun i member => ?_
    dsimp only
    rw [same (place i) (inside i (Finset.mem_range.mp member))]
  written ptr ptr' v _ early := codec.set_congr inside involution ptr ptr' v early
  frame := codec.frame

/-- One byte, in either order. -/
theorem access_byte : Access 1 (fun ptr : Memory UInt8 => ptr 0) fun ptr v => ptr.set 0 v where
  get_set ptr v := ptr.set_same 0 v
  get_congr _ _ same := same 0 Nat.one_pos
  written ptr ptr' v i early := by
    obtain rfl : i = 0 := by omega
    exact (ptr.set_same 0 v).trans (ptr'.set_same 0 v).symm
  frame ptr v i behind := ptr.set_other v (by omega)

/-- What holds of the accessors of every field. -/
structure Field.Sound (f : Field) : Prop where
  get_set : ∀ ptr, f.get (f.set ptr) = f.value
  get_congr : ∀ ptr ptr', (∀ i < f.value.width, ptr i = ptr' i) → f.get ptr = f.get ptr'
  written : ∀ ptr ptr', ∀ i < f.value.width, f.set ptr i = f.set ptr' i
  frame : ∀ ptr i, f.value.width ≤ i → f.set ptr i = ptr i

theorem Access.sound {n : Nat} {β : Type} {get : Memory UInt8 → β}
    {set : Memory UInt8 → β → Memory UInt8} (access : Access n get set) (f : Field) (v : β)
    (wrap : β → Value) (width : f.value.width = n) (value : f.value = wrap v)
    (getter : f.get = fun ptr => wrap (get ptr)) (setter : f.set = fun ptr => set ptr v) :
    f.Sound where
  get_set ptr := by
    rw [getter, setter, value]
    exact congrArg wrap (access.get_set ptr v)
  get_congr ptr ptr' same := by
    rw [getter]
    exact congrArg wrap (access.get_congr ptr ptr' fun i early => same i (width ▸ early))
  written ptr ptr' i early := by
    rw [setter]
    exact access.written ptr ptr' v i (width ▸ early)
  frame ptr i behind := by
    rw [setter]
    exact access.frame ptr v i (width ▸ behind)

theorem Field.sound (f : Field) : f.Sound := by
  obtain ⟨offset, big, value⟩ := f
  cases value with
  | u8 v =>
      cases big with
      | true => exact access_byte.sound _ v .u8 rfl rfl rfl rfl
      | false => exact access_byte.sound _ v .u8 rfl rfl rfl rfl
  | u16 v =>
      cases big with
      | true =>
          exact (access_of_codec be16 (fun _ => mirror_lt) (fun _ => mirror_mirror)
            UInt16.toNat_lt fun _ _ => UInt16.toNat_inj.mp).sound _ v .u16 rfl rfl rfl rfl
      | false =>
          exact (access_of_codec le16 (fun _ => id) (fun _ _ => rfl)
            UInt16.toNat_lt fun _ _ => UInt16.toNat_inj.mp).sound _ v .u16 rfl rfl rfl rfl
  | u32 v =>
      cases big with
      | true =>
          exact (access_of_codec be32 (fun _ => mirror_lt) (fun _ => mirror_mirror)
            UInt32.toNat_lt fun _ _ => UInt32.toNat_inj.mp).sound _ v .u32 rfl rfl rfl rfl
      | false =>
          exact (access_of_codec le32 (fun _ => id) (fun _ _ => rfl)
            UInt32.toNat_lt fun _ _ => UInt32.toNat_inj.mp).sound _ v .u32 rfl rfl rfl rfl
  | u64 v =>
      cases big with
      | true =>
          exact (access_of_codec be64 (fun _ => mirror_lt) (fun _ => mirror_mirror)
            UInt64.toNat_lt fun _ _ => UInt64.toNat_inj.mp).sound _ v .u64 rfl rfl rfl rfl
      | false =>
          exact (access_of_codec le64 (fun _ => id) (fun _ _ => rfl)
            UInt64.toNat_lt fun _ _ => UInt64.toNat_inj.mp).sound _ v .u64 rfl rfl rfl rfl

/-- The patch that the setter of a field is. -/
def patch (f : Field) : Patch UInt8 :=
  ⟨f.offset, (f.set fun _ => 0).slice 0 f.value.width⟩

@[simp] theorem patch_offset (f : Field) : (patch f).offset = f.offset := rfl

@[simp] theorem patch_length (f : Field) : (patch f).cells.length = f.value.width :=
  Memory.slice_length ..

theorem put_eq_patch (packet : Memory UInt8) (f : Field) : put packet f = (patch f).apply packet := by
  funext i
  by_cases inside : (patch f).Covers i
  · obtain ⟨k, rfl⟩ := Nat.exists_eq_add_of_le inside.1
    have early : k < f.value.width := by
      have behind := inside.2
      rw [patch_length] at behind
      omega
    have short : k < (patch f).cells.length := (patch_length f).symm ▸ early
    have stored : (patch f).apply packet ((patch f).offset + k) = f.set (fun _ => 0) k := by
      refine (packet.write_inside (patch f).offset (patch f).cells short).trans ?_
      refine (Memory.getElem_slice ..).trans ?_
      rw [Nat.zero_add]
    rw [stored]
    unfold put
    rw [patch_offset, if_pos (Nat.le_add_right f.offset k), Nat.add_sub_cancel_left]
    exact f.sound.written _ _ k early
  · rw [Patch.apply_outside packet inside]
    unfold Patch.Covers at inside
    rw [patch_offset, patch_length] at inside
    unfold put
    split
    · next behind =>
        rw [f.sound.frame _ _ (by omega)]
        unfold pointer
        rw [Nat.add_sub_cancel' behind]
    · rfl

theorem puts_eq_patches (packet : Memory UInt8) (fields : List Field) :
    fields.foldl put packet = applyAll packet (fields.map patch) := by
  unfold applyAll
  rw [List.foldl_map]
  congr 1
  funext m f
  exact put_eq_patch m f

/-- The getter of a field needs its bytes only. -/
theorem read_of_slice {packet : Memory UInt8} {f : Field}
    (stored : packet.slice f.offset f.value.width = (patch f).cells) :
    read packet f = f.value := by
  have agree : ∀ i < f.value.width, pointer packet f.offset i = f.set (fun _ => 0) i := by
    intro i early
    have here : (packet.slice f.offset f.value.width)[i]? = (patch f).cells[i]? :=
      congrArg (fun cells : List UInt8 => cells[i]?) stored
    have low : i < (packet.slice f.offset f.value.width).length := by
      rw [Memory.slice_length]
      exact early
    have high : i < (patch f).cells.length := (patch_length f).symm ▸ early
    rw [List.getElem?_eq_getElem low, List.getElem?_eq_getElem high, Memory.getElem_slice] at here
    refine (Option.some.inj here).trans ?_
    refine (Memory.getElem_slice ..).trans ?_
    rw [Nat.zero_add]
  unfold read
  rw [f.sound.get_congr _ _ agree]
  exact f.sound.get_set _

/-- No byte belongs to both fields. -/
def Field.Apart (f g : Field) : Prop :=
  f.offset + f.value.width ≤ g.offset ∨ g.offset + g.value.width ≤ f.offset

/-- The byte belongs to the field. -/
def Field.Holds (f : Field) (i : Nat) : Prop := f.offset ≤ i ∧ i < f.offset + f.value.width

/-- What filling a packet does. -/
structure Filled (packet : Memory UInt8) (fields : List Field) : Prop where
  back : ∀ f ∈ fields, read (fields.foldl put packet) f = f.value
  frame : ∀ i, (∀ f ∈ fields, ¬ f.Holds i) → fields.foldl put packet i = packet i
  order : ∀ again : List Field, fields.Perm again → again.foldl put packet = fields.foldl put packet
  fresh : ∀ i packet', (∃ f ∈ fields, f.Holds i) →
    fields.foldl put packet i = fields.foldl put packet' i

section Apart

variable {fields : List Field} (apart : fields.Pairwise Field.Apart)

include apart

theorem patches_apart : (fields.map patch).Pairwise Patch.Apart := by
  rw [List.pairwise_map]
  refine apart.imp fun {f g} separate => ?_
  unfold Patch.Apart
  rw [patch_offset, patch_offset, patch_length, patch_length]
  exact separate

theorem puts_slice (packet : Memory UInt8) {f : Field} (member : f ∈ fields) :
    (fields.foldl put packet).slice f.offset f.value.width = (patch f).cells := by
  have found := applyAll_slice packet (patches_apart apart) (List.mem_map_of_mem member)
  rw [patch_length, patch_offset] at found
  rw [puts_eq_patches]
  exact found

/-- Fields that keep apart are all read back, whatever their widths and byte orders and
whatever the order in which they were set. -/
theorem packet_filled (packet : Memory UInt8) : Filled packet fields where
  back f member := read_of_slice (puts_slice apart packet member)
  frame i outside := by
    rw [puts_eq_patches]
    refine applyAll_outside packet fun p member => ?_
    obtain ⟨f, listed, rfl⟩ := List.mem_map.mp member
    unfold Patch.Covers
    rw [patch_offset, patch_length]
    exact outside f listed
  order again perm := by
    rw [puts_eq_patches, puts_eq_patches]
    exact (applyAll_perm packet (patches_apart apart) (perm.map patch)).symm
  fresh i packet' := by
    rintro ⟨f, member, here⟩
    obtain ⟨k, rfl⟩ := Nat.exists_eq_add_of_le here.1
    have early : k < f.value.width := by
      have behind := here.2
      omega
    have same := (puts_slice apart packet member).trans (puts_slice apart packet' member).symm
    have cell : ((fields.foldl put packet).slice f.offset f.value.width)[k]? =
        ((fields.foldl put packet').slice f.offset f.value.width)[k]? :=
      congrArg (fun cells : List UInt8 => cells[k]?) same
    rw [List.getElem?_eq_getElem (by rw [Memory.slice_length]; exact early),
      List.getElem?_eq_getElem (by rw [Memory.slice_length]; exact early),
      Memory.getElem_slice, Memory.getElem_slice] at cell
    exact Option.some.inj cell

end Apart

/-- A length, a flag byte and an address behind each other, in mixed orders. -/
def header : List Field :=
  [⟨0, true, .u16 0x0102⟩, ⟨2, false, .u8 7⟩, ⟨3, false, .u32 0x0a0b0c0d⟩, ⟨7, true, .u64 258⟩]

theorem packet_filled_header : Filled (fun _ => 0xff) header :=
  packet_filled (by unfold header Field.Apart; decide) _

end CprFormal.Endian.Packets
