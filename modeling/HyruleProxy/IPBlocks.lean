import HyruleProxy.Digits
import HyruleProxy.IPPolicy

namespace HyruleProxy
set_option autoImplicit true

/-- A block of addresses: those that share the first `len` bits with `base`. -/
structure Block where
  base : Nat
  len : Nat

/-- Whether a block of addresses of `width` bits contains the address `x`. -/
def Block.contains (b : Block) (width x : Nat) : Prop :=
  x / 2 ^ (width - b.len) = b.base / 2 ^ (width - b.len)

instance (b : Block) (width x : Nat) : Decidable (b.contains width x) :=
  inferInstanceAs (Decidable (_ = _))

def block4 (octets : List Nat) (len : Nat) : Block := ⟨ofDigits 256 octets, len⟩

def block6 (groups : List Nat) (len : Nat) : Block := ⟨ofDigits 65536 groups, len⟩

/-- The blocks of IPv4 that are not globally reachable. -/
def unreachable4 : List Block :=
  [block4 [0, 0, 0, 0] 8, block4 [10, 0, 0, 0] 8, block4 [100, 64, 0, 0] 10,
    block4 [127, 0, 0, 0] 8, block4 [169, 254, 0, 0] 16, block4 [172, 16, 0, 0] 12,
    block4 [192, 0, 0, 0] 24, block4 [192, 168, 0, 0] 16, block4 [198, 18, 0, 0] 15,
    block4 [224, 0, 0, 0] 4, block4 [240, 0, 0, 0] 4]

def siteLocal : Block := block6 [0xfec0, 0, 0, 0, 0, 0, 0, 0] 10

/-- The blocks of IPv6 that are not globally reachable. -/
def unreachable6 : List Block :=
  [block6 [0, 0, 0, 0, 0, 0, 0, 0] 128, block6 [0, 0, 0, 0, 0, 0, 0, 1] 128,
    block6 [0xfc00, 0, 0, 0, 0, 0, 0, 0] 7, block6 [0xfe80, 0, 0, 0, 0, 0, 0, 0] 10, siteLocal,
    block6 [0xff00, 0, 0, 0, 0, 0, 0, 0] 8]

/-- A form of IPv6 address that holds an IPv4 address, `shift` bits from its end. -/
structure Embedding where
  block : Block
  shift : Nat

def Embedding.inner (f : Embedding) (x : Nat) : Nat := x / 2 ^ f.shift % 2 ^ 32

def mappedForm : Embedding := ⟨block6 [0, 0, 0, 0, 0, 0xffff, 0, 0] 96, 0⟩

/-- The IPv4-compatible, the NAT64 and the 6to4 addresses. -/
def otherForms : List Embedding :=
  [⟨block6 [0, 0, 0, 0, 0, 0, 0, 0] 96, 0⟩, ⟨block6 [0x64, 0xff9b, 0, 0, 0, 0, 0, 0] 96, 0⟩,
    ⟨block6 [0x2002, 0, 0, 0, 0, 0, 0, 0] 16, 80⟩]

def Addr.value : Addr → Nat
  | zero => 0
  | ip4 o => ofDigits 256 (o.1.map (·.toNat))
  | ip6 g _ => ofDigits 65536 (g.1.map (·.toNat))

/-- The IPv4 address of a number. -/
def octetsOf (n : Nat) : Octets :=
  ⟨[(n / 2 ^ 24).toUInt8, (n / 2 ^ 16).toUInt8, (n / 2 ^ 8).toUInt8, n.toUInt8], rfl⟩

/-- What passes the check of a mode is globally reachable and holds no IPv4 address that the
check refuses. -/
def Routable (mode : GoString) (a : Addr) : Prop :=
  ipAllowedForMode a mode = true →
    match a with
    | .zero => True
    | .ip4 _ => ∀ b ∈ unreachable4, ¬ b.contains 32 a.value
    | .ip6 _ _ => (∀ b ∈ unreachable6, ¬ b.contains 128 a.value) ∧
        ∀ f ∈ mappedForm :: otherForms, f.block.contains 128 a.value →
          ipAllowedForMode (.ip4 (octetsOf (f.inner a.value))) mode = true

instance (mode : GoString) : (a : Addr) → Decidable (Routable mode a)
  | .zero => inferInstanceAs (Decidable (_ → True))
  | .ip4 o => inferInstanceAs (Decidable (_ → ∀ b ∈ unreachable4,
      ¬ b.contains 32 (Addr.ip4 o).value))
  | .ip6 g zone => inferInstanceAs (Decidable (_ →
      (∀ b ∈ unreachable6, ¬ b.contains 128 (Addr.ip6 g zone).value) ∧
        ∀ f ∈ mappedForm :: otherForms, f.block.contains 128 (Addr.ip6 g zone).value →
          ipAllowedForMode (.ip4 (octetsOf (f.inner (Addr.ip6 g zone).value))) mode = true))

/-- The blocks of IPv4 that the predicates of `netip` know. -/
def tested4 : List Block :=
  [block4 [0, 0, 0, 0] 32, block4 [10, 0, 0, 0] 8, block4 [127, 0, 0, 0] 8,
    block4 [169, 254, 0, 0] 16, block4 [172, 16, 0, 0] 12, block4 [192, 168, 0, 0] 16,
    block4 [224, 0, 0, 0] 4, block4 [255, 255, 255, 255] 32]

def Refused4 (x : Nat) : Prop := ∃ b ∈ tested4, b.contains 32 x

/-- The blocks of IPv4 that no predicate of `netip` covers as a whole. -/
def untested4 : List Block :=
  [block4 [0, 0, 0, 0] 8, block4 [100, 64, 0, 0] 10, block4 [192, 0, 0, 0] 24,
    block4 [198, 18, 0, 0] 15, block4 [240, 0, 0, 0] 4]

/-- The addresses that the check of the modes direct and Tor should refuse and does not. -/
def Missed : Addr → Prop
  | .zero => False
  | .ip4 o => (∃ b ∈ untested4, b.contains 32 (Addr.ip4 o).value) ∧
      (Addr.ip4 o).value ≠ 0 ∧ (Addr.ip4 o).value ≠ 2 ^ 32 - 1
  | .ip6 g zone => siteLocal.contains 128 (Addr.ip6 g zone).value ∨
      (∃ f ∈ otherForms, f.block.contains 128 (Addr.ip6 g zone).value ∧
        Refused4 (f.inner (Addr.ip6 g zone).value)) ∧
      ((Addr.ip6 g zone).value = 0 → zone ≠ [])

section Numbers

theorem outside_iff (bs : List Block) (width x : Nat) :
    (∀ b ∈ bs, ¬ b.contains width x) ↔ ¬ ∃ b ∈ bs, b.contains width x := by
  simp only [not_exists, not_and]

theorem unreachable4_iff (x : Nat) : (∃ b ∈ unreachable4, b.contains 32 x) ↔
    x / 2 ^ 24 = 0 ∨ x / 2 ^ 24 = 10 ∨ x / 2 ^ 22 = 401 ∨ x / 2 ^ 24 = 127 ∨ x / 2 ^ 16 = 43518 ∨
      x / 2 ^ 20 = 2753 ∨ x / 2 ^ 8 = 12582912 ∨ x / 2 ^ 16 = 49320 ∨ x / 2 ^ 17 = 25353 ∨
      x / 2 ^ 28 = 14 ∨ x / 2 ^ 28 = 15 := by
  simp [unreachable4, Block.contains, block4, ofDigits]

theorem refused4_iff (x : Nat) : Refused4 x ↔
    x = 0 ∨ x / 2 ^ 24 = 10 ∨ x / 2 ^ 24 = 127 ∨ x / 2 ^ 16 = 43518 ∨ x / 2 ^ 20 = 2753 ∨
      x / 2 ^ 16 = 49320 ∨ x / 2 ^ 28 = 14 ∨ x = 4294967295 := by
  simp [Refused4, tested4, Block.contains, block4, ofDigits]

theorem untested4_iff (x : Nat) : (∃ b ∈ untested4, b.contains 32 x) ↔
    x / 2 ^ 24 = 0 ∨ x / 2 ^ 22 = 401 ∨ x / 2 ^ 8 = 12582912 ∨ x / 2 ^ 17 = 25353 ∨
      x / 2 ^ 28 = 15 := by
  simp [untested4, Block.contains, block4, ofDigits]

theorem unreachable6_iff (x : Nat) : (∃ b ∈ unreachable6, b.contains 128 x) ↔
    x = 0 ∨ x = 1 ∨ x / 2 ^ 121 = 0x7e ∨ x / 2 ^ 118 = 0x3fa ∨ x / 2 ^ 118 = 0x3fb ∨
      x / 2 ^ 120 = 0xff := by
  simp [unreachable6, siteLocal, Block.contains, block6, ofDigits]

theorem otherForms_iff (P : Nat → Prop) (x : Nat) :
    (∃ f ∈ otherForms, f.block.contains 128 x ∧ P (f.inner x)) ↔
      (x / 2 ^ 32 = 0 ∧ P (x % 2 ^ 32)) ∨ (x / 2 ^ 32 = 0x64ff9b * 2 ^ 64 ∧ P (x % 2 ^ 32)) ∨
        (x / 2 ^ 112 = 0x2002 ∧ P (x / 2 ^ 80 % 2 ^ 32)) := by
  simp [otherForms, Embedding.inner, Block.contains, block6, ofDigits]

theorem and_highMask (x : UInt16) (k : Nat) (hk : k ≤ 16) (m : UInt16)
    (hm : ∀ i < 16, m.toNat.testBit i = decide (k ≤ i)) :
    (x &&& m).toNat = x.toNat / 2 ^ k * 2 ^ k := by
  rw [UInt16.toNat_and, ← Nat.shiftRight_eq_div_pow, ← Nat.shiftLeft_eq]
  apply Nat.eq_of_testBit_eq
  intro i
  rw [Nat.testBit_and, Nat.testBit_shiftLeft, Nat.testBit_shiftRight]
  by_cases hi : i < 16
  · rw [hm i hi]
    by_cases hki : k ≤ i
    · simp [hki]
    · simp [hki]
  · have hx : x.toNat.testBit i = false :=
      Nat.testBit_lt_two_pow (x.toNat_lt.trans_le (Nat.pow_le_pow_right (by decide) (by omega)))
    have hki : k ≤ i := by omega
    simp [hx, hki]

theorem group_masks (x : UInt16) :
    (x &&& 0xfe00 = 0xfc00 ↔ x.toNat / 2 ^ 9 = 0x7e) ∧
      (x &&& 0xfe00 = 0x0200 ↔ x.toNat / 2 ^ 9 = 1) ∧
      (x &&& 0xffc0 = 0xfe80 ↔ x.toNat / 2 ^ 6 = 0x3fa) ∧
      (x >>> 8 = 0xff ↔ x.toNat / 2 ^ 8 = 0xff) := by
  have h9 := and_highMask x 9 (by decide) 0xfe00 (by decide)
  have h6 := and_highMask x 6 (by decide) 0xffc0 (by decide)
  have h8 : (x >>> 8).toNat = x.toNat / 2 ^ 8 := by
    rw [UInt16.toNat_shiftRight, Nat.shiftRight_eq_div_pow]
    rfl
  have hfc : (0xfc00 : UInt16).toNat = 0xfc00 := rfl
  have h02 : (0x0200 : UInt16).toNat = 0x0200 := rfl
  have hfe : (0xfe80 : UInt16).toNat = 0xfe80 := rfl
  have hff : (0xff : UInt16).toNat = 0xff := rfl
  rw [← UInt16.toNat_inj, ← UInt16.toNat_inj, ← UInt16.toNat_inj, ← UInt16.toNat_inj, h9, h6, h8,
    hfc, h02, hfe, hff]
  refine ⟨?_, ?_, ?_, ?_⟩
  · omega
  · omega
  · omega
  · omega

theorem octet_masks (x : UInt8) : (x &&& 0xf0 = 0xe0 ↔ x.toNat / 2 ^ 4 = 14) ∧
    (x &&& 0xf0 = 16 ↔ x.toNat / 2 ^ 4 = 1) := by
  revert x
  decide +kernel

end Numbers

section Octets

variable (o : Octets)

theorem exists_octets : ∃ a b c d, o.1 = [a, b, c, d] := by
  obtain ⟨o, ho⟩ := o
  match o, ho with
  | [a, b, c, d], _ => exact ⟨a, b, c, d, rfl⟩

theorem octets_lt (l : List UInt8) : ∀ d ∈ l.map (·.toNat), d < 256 := by
  intro d hd
  obtain ⟨x, _, rfl⟩ := List.mem_map.1 hd
  exact x.toNat_lt

theorem value_ip4_lt : (Addr.ip4 o).value < 2 ^ 32 := by
  have h := ofDigits_lt (by decide) (octets_lt o.1)
  rw [List.length_map, o.2] at h
  exact h

theorem value_ip4_inj (o' : Octets) :
    Addr.ip4 o = .ip4 o' ↔ (Addr.ip4 o).value = (Addr.ip4 o').value := by
  have hl : (o.1.map (·.toNat)).length = (o'.1.map (·.toNat)).length := by
    rw [List.length_map, List.length_map, o.2, o'.2]
  rw [Addr.value, Addr.value, ofDigits_inj (by decide) hl (octets_lt _) (octets_lt _),
    List.map_inj_right fun x y => UInt8.toNat_inj.1, Addr.ip4.injEq, Subtype.ext_iff]

theorem value_high {a b c d : UInt8} (ho : o.1 = [a, b, c, d]) :
    (Addr.ip4 o).value / 2 ^ 16 = a.toNat * 256 + b.toNat := by
  have h := ofDigits_div (by decide) [a.toNat, b.toNat] (octets_lt [c, d])
  rw [Addr.value, ho]
  simpa [ofDigits] using h

theorem isLoopback_ip4 : (Addr.ip4 o).isLoopback = true ↔ (Addr.ip4 o).value / 2 ^ 24 = 127 := by
  obtain ⟨a, b, c, d, ho⟩ := exists_octets o
  have hb := b.toNat_lt
  have hv := value_high o ho
  have h : (Addr.ip4 o).isLoopback = true ↔ a.toNat = 127 := by
    simp [Addr.isLoopback, Addr.unmap, ho, ← UInt8.toNat_inj]
  rw [h]
  omega

theorem isMulticast_ip4 : (Addr.ip4 o).isMulticast = true ↔ (Addr.ip4 o).value / 2 ^ 28 = 14 := by
  obtain ⟨a, b, c, d, ho⟩ := exists_octets o
  have hb := b.toNat_lt
  have hv := value_high o ho
  have h : (Addr.ip4 o).isMulticast = true ↔ a.toNat / 2 ^ 4 = 14 := by
    rw [← (octet_masks a).1]
    simp [Addr.isMulticast, Addr.unmap, ho]
  rw [h]
  omega

theorem isLinkLocalUnicast_ip4 :
    (Addr.ip4 o).isLinkLocalUnicast = true ↔ (Addr.ip4 o).value / 2 ^ 16 = 43518 := by
  obtain ⟨a, b, c, d, ho⟩ := exists_octets o
  have hb := b.toNat_lt
  have h : (Addr.ip4 o).isLinkLocalUnicast = true ↔ a.toNat = 169 ∧ b.toNat = 254 := by
    simp [Addr.isLinkLocalUnicast, Addr.unmap, ho, ← UInt8.toNat_inj]
  rw [h, value_high o ho]
  omega

theorem isPrivate_ip4 : (Addr.ip4 o).isPrivate = true ↔ (Addr.ip4 o).value / 2 ^ 24 = 10 ∨
    (Addr.ip4 o).value / 2 ^ 20 = 2753 ∨ (Addr.ip4 o).value / 2 ^ 16 = 49320 := by
  obtain ⟨a, b, c, d, ho⟩ := exists_octets o
  have hb := b.toNat_lt
  have hv := value_high o ho
  have h : (Addr.ip4 o).isPrivate = true ↔
      a.toNat = 10 ∨ (a.toNat = 172 ∧ b.toNat / 2 ^ 4 = 1) ∨ (a.toNat = 192 ∧ b.toNat = 168) := by
    rw [← (octet_masks b).2]
    simp [Addr.isPrivate, Addr.unmap, ho, ← UInt8.toNat_inj]
  rw [h]
  omega

/-- The check of the modes direct and Tor refuses exactly the tested blocks of IPv4. -/
theorem allowed4_iff (hm : mode = proxyModeDirect ∨ mode = proxyModeTor) :
    ipAllowedForMode (.ip4 o) mode = true ↔
      ¬ Refused4 (Addr.ip4 o).value := by
  have hu : Addr.ip4 o = .ip4 ⟨[0, 0, 0, 0], rfl⟩ ↔ (Addr.ip4 o).value = 0 := value_ip4_inj o _
  have hb : Addr.ip4 o = .ip4 ⟨[255, 255, 255, 255], rfl⟩ ↔ (Addr.ip4 o).value = 4294967295 :=
    value_ip4_inj o _
  have hg : (Addr.ip4 o).isGlobalUnicast = true ↔ ¬ ((Addr.ip4 o).value = 0 ∨
      (Addr.ip4 o).value = 4294967295) ∧ ¬ (Addr.ip4 o).isLoopback = true ∧
        ¬ (Addr.ip4 o).isMulticast = true ∧ ¬ (Addr.ip4 o).isLinkLocalUnicast = true := by
    rw [← hu, ← hb]
    simp [Addr.isGlobalUnicast, Addr.unmap, Addr.ip4Unspecified, Addr.ip6Unspecified, and_assoc]
  have h6 : (Addr.ip4 o).isUnspecified = true ↔ (Addr.ip4 o).value = 0 := by
    rw [← hu]
    simp [Addr.isUnspecified, Addr.ip4Unspecified, Addr.ip6Unspecified]
  have hy : isYggdrasilIP (.ip4 o) = false := Bool.and_false _
  have hv : (Addr.ip4 o).isValid = true := rfl
  rw [ipAllowedForMode, if_pos hm, isPublicIP, hy, hv, refused4_iff]
  simp only [Bool.and_eq_true, Bool.not_eq_true', ← Bool.not_eq_true, hg, h6, isLoopback_ip4,
    isMulticast_ip4, isLinkLocalUnicast_ip4, isPrivate_ip4, and_true,
    true_and]
  omega

end Octets

section Groups

variable (g : Groups) (zone : GoString)

theorem exists_groups : ∃ a b c d e f h i, g.1 = [a, b, c, d, e, f, h, i] := by
  obtain ⟨g, hg⟩ := g
  match g, hg with
  | [a, b, c, d, e, f, h, i], _ => exact ⟨a, b, c, d, e, f, h, i, rfl⟩

theorem value_groups {a b c d e f h i : UInt16} (hg : g.1 = [a, b, c, d, e, f, h, i]) :
    (Addr.ip6 g zone).value =
      ((((((a.toNat * 65536 + b.toNat) * 65536 + c.toNat) * 65536 + d.toNat) * 65536 + e.toNat) *
        65536 + f.toNat) * 65536 + h.toNat) * 65536 + i.toNat := by
  simp [Addr.value, hg, ofDigits]

theorem groups_lt (l : List UInt16) : ∀ d ∈ l.map (·.toNat), d < 65536 := by
  intro d hd
  obtain ⟨x, _, rfl⟩ := List.mem_map.1 hd
  exact x.toNat_lt

theorem value_take (k : Nat) :
    ofDigits 65536 ((g.1.take k).map (·.toNat)) = (Addr.ip6 g zone).value / 65536 ^ (8 - k) := by
  have h := ofDigits_div (by decide) ((g.1.take k).map (·.toNat)) (groups_lt (g.1.drop k))
  rw [← List.map_append, List.take_append_drop, List.length_map, List.length_drop, g.2] at h
  exact h.symm

theorem value_head : (g.1.getD 0 0).toNat = (Addr.ip6 g zone).value / 2 ^ 112 := by
  obtain ⟨a, b, c, d, e, f, h, i, hg⟩ := exists_groups g
  have hv := value_take g zone 1
  rw [hg] at hv ⊢
  simpa [ofDigits] using hv

theorem ofDigits_groups_inj (l l' : List UInt16) (hl : l.length = l'.length) :
    l = l' ↔ ofDigits 65536 (l.map (·.toNat)) = ofDigits 65536 (l'.map (·.toNat)) := by
  rw [ofDigits_inj (by decide) (by rw [List.length_map, List.length_map, hl]) (groups_lt _)
    (groups_lt _), List.map_inj_right fun x y => UInt16.toNat_inj.1]

theorem groups_eq_iff (l : List UInt16) (hl : l.length = 8) :
    g.1 = l ↔ (Addr.ip6 g zone).value = ofDigits 65536 (l.map (·.toNat)) :=
  ofDigits_groups_inj g.1 l (g.2.trans hl.symm)

theorem is4In6_iff : (Addr.ip6 g zone).is4In6 = true ↔
    (Addr.ip6 g zone).value / 2 ^ 32 = 0xffff := by
  have hl : (g.1.take 6).length = 6 := by rw [List.length_take, g.2]; rfl
  rw [Addr.is4In6, decide_eq_true_eq, ofDigits_groups_inj _ _ hl, value_take g zone]
  rfl

theorem value_yggdrasil :
    yggdrasilContains (.ip6 g zone) = true ↔ zone = [] ∧ (Addr.ip6 g zone).value / 2 ^ 121 = 1 := by
  rw [yggdrasilContains, decide_eq_true_eq, (group_masks (g.1.getD 0 0)).2.1, value_head g zone,
    Nat.div_div_eq_div_mul, ← Nat.pow_add]

theorem isUnspecified_ip6 : (Addr.ip6 g zone).isUnspecified = true ↔
    (Addr.ip6 g zone).value = 0 ∧ zone = [] := by
  have hz : Addr.ip6 g zone = Addr.ip6Unspecified ↔ (Addr.ip6 g zone).value = 0 ∧ zone = [] := by
    rw [Addr.ip6Unspecified, Addr.ip6.injEq, Subtype.ext_iff, groups_eq_iff g zone _ rfl]
    rfl
  rw [← hz]
  simp [Addr.isUnspecified, Addr.ip4Unspecified]

section Unmapped

variable {g zone} (h4 : (Addr.ip6 g zone).is4In6 = false)

include h4

theorem unmap_ip6 : (Addr.ip6 g zone).unmap = .ip6 g zone := by
  rw [Addr.unmap, h4]
  rfl

theorem isLoopback_ip6 : (Addr.ip6 g zone).isLoopback = true ↔ (Addr.ip6 g zone).value = 1 := by
  rw [Addr.isLoopback, unmap_ip6 h4]
  exact decide_eq_true_iff.trans (groups_eq_iff g zone _ rfl)

theorem isMulticast_ip6 : (Addr.ip6 g zone).isMulticast = true ↔
    (Addr.ip6 g zone).value / 2 ^ 120 = 0xff := by
  rw [Addr.isMulticast, unmap_ip6 h4, decide_eq_true_eq, (group_masks _).2.2.2, value_head g zone]
  omega

theorem isLinkLocalUnicast_ip6 : (Addr.ip6 g zone).isLinkLocalUnicast = true ↔
    (Addr.ip6 g zone).value / 2 ^ 118 = 0x3fa := by
  rw [Addr.isLinkLocalUnicast, unmap_ip6 h4, decide_eq_true_eq, (group_masks _).2.2.1,
    value_head g zone]
  omega

theorem isPrivate_ip6 : (Addr.ip6 g zone).isPrivate = true ↔
    (Addr.ip6 g zone).value / 2 ^ 121 = 0x7e := by
  rw [Addr.isPrivate, unmap_ip6 h4, decide_eq_true_eq, (group_masks _).1, value_head g zone]
  omega

theorem isGlobalUnicast_ip6 : (Addr.ip6 g zone).isGlobalUnicast = true ↔
    ¬ ((Addr.ip6 g zone).value = 0 ∧ zone = []) ∧ ¬ (Addr.ip6 g zone).isLoopback = true ∧
      ¬ (Addr.ip6 g zone).isMulticast = true ∧ ¬ (Addr.ip6 g zone).isLinkLocalUnicast = true := by
  rw [← isUnspecified_ip6]
  simp [Addr.isGlobalUnicast, Addr.isUnspecified, unmap_ip6 h4, Addr.ip4Unspecified, and_assoc]

/-- The check of the modes direct and Tor on an IPv6 address that is not a mapped one. -/
theorem allowed6_iff (hm : mode = proxyModeDirect ∨ mode = proxyModeTor) :
    ipAllowedForMode (.ip6 g zone) mode = true ↔
      ¬ (zone = [] ∧ ((Addr.ip6 g zone).value = 0 ∨ (Addr.ip6 g zone).value / 2 ^ 121 = 1)) ∧
        (Addr.ip6 g zone).value ≠ 1 ∧ (Addr.ip6 g zone).value / 2 ^ 120 ≠ 0xff ∧
        (Addr.ip6 g zone).value / 2 ^ 118 ≠ 0x3fa ∧ (Addr.ip6 g zone).value / 2 ^ 121 ≠ 0x7e := by
  have hv : (Addr.ip6 g zone).isValid = true := by simp [Addr.isValid]
  rw [ipAllowedForMode, if_pos hm, isPublicIP, isYggdrasilIP, hv]
  simp only [Bool.and_eq_true, Bool.not_eq_true', ← Bool.not_eq_true, isGlobalUnicast_ip6 h4,
    isUnspecified_ip6, isLoopback_ip6 h4, isMulticast_ip6 h4, isLinkLocalUnicast_ip6 h4,
    isPrivate_ip6 h4, value_yggdrasil, true_and]
  constructor
  · rintro ⟨⟨⟨⟨⟨⟨⟨h0, h1, h2, h3⟩, hp⟩, _⟩, _⟩, _⟩, _⟩, hy⟩
    refine ⟨?_, h1, h2, h3, hp⟩
    rintro ⟨hz, h | h⟩
    · exact h0 ⟨h, hz⟩
    · exact hy ⟨hz, h⟩
  · rintro ⟨hn, h1, h2, h3, hp⟩
    have h0 : ¬ ((Addr.ip6 g zone).value = 0 ∧ zone = []) := fun h => hn ⟨h.2, .inl h.1⟩
    exact ⟨⟨⟨⟨⟨⟨⟨h0, h1, h2, h3⟩, hp⟩, h1⟩, h3⟩, h2⟩, h0⟩, fun h => hn ⟨h.1, .inr h.2⟩⟩

end Unmapped

theorem lowOctets_value :
    Addr.lowOctets g = octetsOf (mappedForm.inner (Addr.ip6 g zone).value) := by
  obtain ⟨a, b, c, d, e, f, h, i, hg⟩ := exists_groups g
  have hh := h.toNat_lt
  have hi := i.toNat_lt
  have hhi (x : UInt16) : (x >>> 8).toUInt8.toNat = x.toNat / 256 % 256 := by
    rw [UInt16.toNat_toUInt8, UInt16.toNat_shiftRight, Nat.shiftRight_eq_div_pow]
    rfl
  have hlo (x : UInt16) : x.toUInt8.toNat = x.toNat % 256 := UInt16.toNat_toUInt8 x
  have hof (n : Nat) : n.toUInt8.toNat = n % 256 := UInt8.toNat_ofNat'
  rw [Embedding.inner, value_groups g zone hg, octetsOf, Subtype.ext_iff]
  simp only [Addr.lowOctets, hg, List.cons.injEq, and_true, ← UInt8.toNat_inj, hhi, hlo, hof,
    mappedForm, List.getD_cons_succ, List.getD_cons_zero]
  omega

theorem predicates_of_unmap {a b : Addr} (h : a.unmap = b.unmap) :
    a.isLoopback = b.isLoopback ∧ a.isMulticast = b.isMulticast ∧
      a.isLinkLocalUnicast = b.isLinkLocalUnicast ∧ a.isPrivate = b.isPrivate := by
  refine ⟨?_, ?_, ?_, ?_⟩
  · rw [Addr.isLoopback, h, Addr.isLoopback]
  · rw [Addr.isMulticast, h, Addr.isMulticast]
  · rw [Addr.isLinkLocalUnicast, h, Addr.isLinkLocalUnicast]
  · rw [Addr.isPrivate, h, Addr.isPrivate]

theorem isUnspecified_of_global {a : Addr} (h : a.isGlobalUnicast = true) :
    a.isUnspecified = false := by
  cases hs : a.isUnspecified with
  | false => rfl
  | true =>
    rcases of_decide_eq_true hs with rfl | rfl
    · revert h
      decide
    · revert h
      decide

/-- The check treats a mapped address like the IPv4 address it holds. -/
theorem allowed_mapped (hm : mode = proxyModeDirect ∨ mode = proxyModeTor)
    (h4 : (Addr.ip6 g zone).is4In6 = true) :
    ipAllowedForMode (.ip6 g zone) mode = true ↔
      ipAllowedForMode (.ip4 (Addr.lowOctets g)) mode = true := by
  have hun : (Addr.ip6 g zone).unmap = .ip4 (Addr.lowOctets g) := by rw [Addr.unmap, if_pos h4]
  have hx := (is4In6_iff g zone).1 h4
  obtain ⟨hl, hmc, hll, hp⟩ := predicates_of_unmap (b := .ip4 (Addr.lowOctets g)) hun
  have hg : (Addr.ip6 g zone).isGlobalUnicast =
      (Addr.ip4 (Addr.lowOctets g)).isGlobalUnicast := by
    rw [Addr.isGlobalUnicast, hun]
    rfl
  have hy : yggdrasilContains (.ip6 g zone) = false := by
    rw [← Bool.not_eq_true, value_yggdrasil]
    rintro ⟨_, h⟩
    omega
  have hu : (Addr.ip6 g zone).isUnspecified = false := by
    rw [← Bool.not_eq_true, isUnspecified_ip6]
    rintro ⟨h, _⟩
    omega
  have hv : (Addr.ip6 g zone).isValid = true := by simp [Addr.isValid]
  have hv4 : (Addr.ip4 (Addr.lowOctets g)).isValid = true := rfl
  have hy4 : yggdrasilContains (.ip4 (Addr.lowOctets g)) = false := rfl
  rw [ipAllowedForMode, if_pos hm, ipAllowedForMode, if_pos hm]
  simp only [isPublicIP, isYggdrasilIP, hv, hv4, hl, hmc, hll, hp, hg, hy, hy4, hu,
    Bool.and_eq_true, Bool.not_eq_true', Bool.true_and, Bool.and_false, and_true, Bool.not_false]
  constructor
  · intro h
    exact ⟨h, isUnspecified_of_global h.1.1.1.1⟩
  · exact And.left

end Groups

theorem value_octetsOf {n : Nat} (hn : n < 2 ^ 32) : (Addr.ip4 (octetsOf n)).value = n := by
  have hof (n : Nat) : n.toUInt8.toNat = n % 256 := UInt8.toNat_ofNat'
  simp only [octetsOf, Addr.value, List.map_cons, List.map_nil, hof, ofDigits, List.foldl_cons,
    List.foldl_nil]
  omega

theorem mappedForm_contains (x : Nat) : mappedForm.block.contains 128 x ↔ x / 2 ^ 32 = 0xffff := by
  simp [mappedForm, Block.contains, block6, ofDigits]

theorem siteLocal_contains (x : Nat) : siteLocal.contains 128 x ↔ x / 2 ^ 118 = 0x3fb := by
  simp [siteLocal, Block.contains, block6, ofDigits]

theorem inner_lt (f : Embedding) (x : Nat) : f.inner x < 2 ^ 32 := Nat.mod_lt _ (by decide)

theorem missed6_iff (x : Nat) (zone : GoString) :
    (¬ (zone = [] ∧ (x = 0 ∨ x / 2 ^ 121 = 1)) ∧ x ≠ 1 ∧ x / 2 ^ 120 ≠ 0xff ∧
        x / 2 ^ 118 ≠ 0x3fa ∧ x / 2 ^ 121 ≠ 0x7e) ∧
      ((x = 0 ∨ x = 1 ∨ x / 2 ^ 121 = 0x7e ∨ x / 2 ^ 118 = 0x3fa ∨ x / 2 ^ 118 = 0x3fb ∨
          x / 2 ^ 120 = 0xff) ∨
        ((x / 2 ^ 32 = 0 ∧ Refused4 (x % 2 ^ 32)) ∨
          (x / 2 ^ 32 = 0x64ff9b * 2 ^ 64 ∧ Refused4 (x % 2 ^ 32)) ∨
          (x / 2 ^ 112 = 0x2002 ∧ Refused4 (x / 2 ^ 80 % 2 ^ 32)))) ↔
    x / 2 ^ 118 = 0x3fb ∨
      ((x / 2 ^ 32 = 0 ∧ Refused4 (x % 2 ^ 32)) ∨
        (x / 2 ^ 32 = 0x64ff9b * 2 ^ 64 ∧ Refused4 (x % 2 ^ 32)) ∨
        (x / 2 ^ 112 = 0x2002 ∧ Refused4 (x / 2 ^ 80 % 2 ^ 32))) ∧ (x = 0 → zone ≠ []) := by
  constructor
  · rintro ⟨⟨hz, h1, hff, hfe, hfc⟩, hU | hF⟩
    · rcases hU with rfl | h | h | h | h | h
      · have h0 : Refused4 0 := (refused4_iff 0).2 (.inl rfl)
        exact .inr ⟨.inl ⟨rfl, h0⟩, fun _ hzone => hz ⟨hzone, .inl rfl⟩⟩
      · exact absurd h h1
      · exact absurd h hfc
      · exact absurd h hfe
      · exact .inl h
      · exact absurd h hff
    · exact .inr ⟨hF, fun hx hzone => hz ⟨hzone, .inl hx⟩⟩
  · rintro (hS | ⟨hF, hzone⟩)
    · have hx : x ≠ 0 ∧ x / 2 ^ 121 ≠ 1 ∧ x ≠ 1 ∧ x / 2 ^ 120 ≠ 0xff ∧ x / 2 ^ 118 ≠ 0x3fa ∧
          x / 2 ^ 121 ≠ 0x7e := by omega
      refine ⟨⟨?_, hx.2.2⟩, .inl (.inr (.inr (.inr (.inr (.inl hS)))))⟩
      rintro ⟨_, h | h⟩
      · exact hx.1 h
      · exact hx.2.1 h
    · have hx : x / 2 ^ 121 ≠ 1 ∧ x / 2 ^ 120 ≠ 0xff ∧ x / 2 ^ 118 ≠ 0x3fa ∧
          x / 2 ^ 121 ≠ 0x7e := by
        rcases hF with ⟨h, _⟩ | ⟨h, _⟩ | ⟨h, _⟩ <;> omega
      have h1 : x ≠ 1 := by
        rintro rfl
        rcases hF with ⟨_, h⟩ | ⟨h, _⟩ | ⟨h, _⟩
        · have hn := (refused4_iff _).1 h
          omega
        · omega
        · omega
      refine ⟨⟨?_, h1, hx.2⟩, .inr hF⟩
      rintro ⟨hz, h | h⟩
      · exact hzone h hz
      · exact hx.1 h

section Modes

variable {mode : GoString} (hm : mode = proxyModeDirect ∨ mode = proxyModeTor)

include hm

theorem allowed_octetsOf {n : Nat} (hn : n < 2 ^ 32) :
    ipAllowedForMode (.ip4 (octetsOf n)) mode = true ↔ ¬ Refused4 n := by
  have h := allowed4_iff (octetsOf n) hm
  rw [value_octetsOf hn] at h
  exact h

theorem routable_ip4 (o : Octets) : Routable mode (.ip4 o) ↔ ¬ Missed (.ip4 o) := by
  have hlt := value_ip4_lt o
  rw [Routable, Missed, allowed4_iff o hm, outside_iff, unreachable4_iff, untested4_iff,
    refused4_iff]
  omega

theorem forms_iff (x : Nat) (hx : x / 2 ^ 32 ≠ 0xffff) :
    (∀ f ∈ mappedForm :: otherForms, f.block.contains 128 x →
      ipAllowedForMode (.ip4 (octetsOf (f.inner x))) mode = true) ↔
    ¬ ∃ f ∈ otherForms, f.block.contains 128 x ∧ Refused4 (f.inner x) := by
  constructor
  · rintro h ⟨f, hf, hc, hb⟩
    exact (allowed_octetsOf hm (inner_lt f x)).1 (h f (List.mem_cons_of_mem _ hf) hc) hb
  · intro h f hf hc
    rw [allowed_octetsOf hm (inner_lt f x)]
    rcases List.mem_cons.1 hf with rfl | hf
    · exact absurd ((mappedForm_contains x).1 hc) hx
    · exact fun hb => h ⟨f, hf, hc, hb⟩

theorem routable_mapped (g : Groups) (zone : GoString) (h4 : (Addr.ip6 g zone).is4In6 = true) :
    Routable mode (.ip6 g zone) ↔ ¬ Missed (.ip6 g zone) := by
  have hx := (is4In6_iff g zone).1 h4
  refine iff_of_true ?_ ?_
  · intro ha
    rw [allowed_mapped g zone hm h4, lowOctets_value g zone] at ha
    constructor
    · rw [outside_iff, unreachable6_iff]
      omega
    · intro f hf hc
      rcases List.mem_cons.1 hf with rfl | hf
      · exact ha
      · have hnone := (otherForms_iff (fun _ => True) (Addr.ip6 g zone).value).1
          ⟨f, hf, hc, trivial⟩
        simp only [and_true] at hnone
        omega
  · rw [Missed, siteLocal_contains, otherForms_iff Refused4]
    rintro (h | ⟨h | h | h, _⟩) <;> omega

theorem routable_ip6 (g : Groups) (zone : GoString) (h4 : (Addr.ip6 g zone).is4In6 = false) :
    Routable mode (.ip6 g zone) ↔ ¬ Missed (.ip6 g zone) := by
  have hx : (Addr.ip6 g zone).value / 2 ^ 32 ≠ 0xffff := by
    intro h
    rw [(is4In6_iff g zone).2 h] at h4
    cases h4
  rw [Routable, Missed, outside_iff, forms_iff hm _ hx, allowed6_iff h4 hm, unreachable6_iff,
    siteLocal_contains, otherForms_iff Refused4, ← missed6_iff]
  constructor
  · rintro h ⟨ha, hU | hF⟩
    · exact (h ha).1 hU
    · exact (h ha).2 hF
  · intro h ha
    exact ⟨fun hU => h ⟨ha, .inl hU⟩, fun hF => h ⟨ha, .inr hF⟩⟩

/-- The check of the modes direct and Tor lets pass what it should, except for the missed
addresses. -/
theorem routable_iff_not_missed (a : Addr) : Routable mode a ↔ ¬ Missed a := by
  cases a with
  | zero =>
    refine iff_of_true ?_ id
    intro _
    trivial
  | ip4 o => exact routable_ip4 hm o
  | ip6 g zone =>
    cases h4 : (Addr.ip6 g zone).is4In6 with
    | true => exact routable_mapped hm g zone h4
    | false => exact routable_ip6 hm g zone h4

end Modes

/-- A public resolver's address passes and is routable. -/
theorem routable_public : ∃ a, parseAddr (lit "1.1.1.1") = some a ∧
    ipAllowedForMode a proxyModeTor = true ∧ Routable proxyModeTor a := by
  refine ⟨.ip4 ⟨[1, 1, 1, 1], rfl⟩, by decide, by decide, ?_⟩
  refine (routable_iff_not_missed (.inr rfl) _).2 ?_
  rw [Missed, untested4_iff]
  decide

/-- Addresses of each untested block of IPv4 and of the site-local block, and an address of each
form that holds a refused IPv4 address, pass the check. -/
theorem passes_unroutable :
    ([lit "0.0.0.1", lit "100.64.0.1", lit "192.0.0.8", lit "198.18.0.1", lit "240.0.0.1",
      lit "fec0::1", lit "::127.0.0.1", lit "64:ff9b::10.0.0.1", lit "2002:7f00:1::",
      lit "::%x"].all fun s => (parseAddr s).any fun a =>
        ¬ Routable proxyModeDirect a ∧ ¬ Routable proxyModeTor a) = true := by
  decide

end HyruleProxy
