import HyruleProxy.Asking
import HyruleProxy.Strings

namespace HyruleProxy
set_option autoImplicit true

def proxyModeDirect : GoString := lit "direct"
def proxyModeTor : GoString := lit "tor"
def proxyModeI2P : GoString := lit "i2p"
def proxyModeYggdrasil : GoString := lit "yggdrasil"

/-- An error value: its text, and whether `errors.Is` finds `ErrPolicyDenied` in it. -/
structure GoError where
  text : GoString
  policyDenied : Bool
  deriving DecidableEq

def GoError.plain (text : GoString) : GoError := ⟨text, false⟩

def errPolicyDenied (text : GoString) : GoError := ⟨lit "policy denied: " ++ text, true⟩

/-- A resolver: the addresses of a name, or the text of the error. -/
abbrev Resolver := GoString → Except GoString (List Addr)

/-- A computation that may look up names with a `Resolver`. -/
abbrev Lookups := Asking GoString (Except GoString (List Addr))

def isLocalhost (U : Unicode) (host : GoString) : Bool :=
  equalFold U host (lit "localhost") || equalFold U host (lit "localhost.localdomain")

/-- The prefix `200::/7`, which contains no address with a zone. -/
def yggdrasilContains : Addr → Bool
  | .ip6 g zone => zone = [] ∧ g.1.getD 0 0 &&& 0xfe00 = 0x0200
  | _ => false

def isPublicIP (addr : Addr) : Bool :=
  addr.isValid && addr.isGlobalUnicast && !addr.isPrivate && !addr.isLoopback &&
    !addr.isLinkLocalUnicast && !addr.isMulticast && !addr.isUnspecified

def isYggdrasilIP (addr : Addr) : Bool := addr.isValid && yggdrasilContains addr

def ipAllowedForMode (addr : Addr) (mode : GoString) : Bool :=
  if mode = proxyModeDirect ∨ mode = proxyModeTor then isPublicIP addr && !isYggdrasilIP addr
  else if mode = proxyModeYggdrasil then isYggdrasilIP addr
  else false

/-- The address a packet is sent to: the zone is dropped and a mapped address is unmapped. -/
def Addr.bits (a : Addr) : Addr := a.withoutZone.unmap

/-- What the modes promise about the bits of a destination. -/
def bitsAllowed (mode : GoString) (a : Addr) : Bool :=
  if mode = proxyModeDirect ∨ mode = proxyModeTor then
    !a.bits.isUnspecified && !a.bits.isLoopback && !a.bits.isPrivate &&
      !a.bits.isLinkLocalUnicast && !a.bits.isMulticast && !yggdrasilContains a.bits
  else if mode = proxyModeYggdrasil then yggdrasilContains a.bits
  else false

/-- A zone keeps the guard from seeing the unspecified address or an address in `200::/7`. -/
def masked (mode : GoString) (a : Addr) : Bool :=
  (mode = proxyModeDirect ∨ mode = proxyModeTor) ∧ a.zone ≠ [] ∧
    (a.withoutZone = Addr.ip6Unspecified ∨ yggdrasilContains a.withoutZone = true)

namespace Addr

theorem unmap_withoutZone (a : Addr) : a.withoutZone.unmap = a.unmap.withoutZone := by
  cases a with
  | zero => rfl
  | ip4 o => rfl
  | ip6 g z =>
    have h4 : (ip6 g []).is4In6 = (ip6 g z).is4In6 := rfl
    by_cases h : (ip6 g z).is4In6
    · simp [withoutZone, unmap, h4, h]
    · simp [withoutZone, unmap, h4, h]

theorem unmap_unmap (a : Addr) : a.unmap.unmap = a.unmap := by
  cases a with
  | zero => rfl
  | ip4 o => rfl
  | ip6 g z =>
    by_cases h : (ip6 g z).is4In6
    · simp [unmap, h]
    · simp [unmap, h]

theorem bits_eq (a : Addr) : a.bits = a.unmap.withoutZone := unmap_withoutZone a

theorem unmap_bits (a : Addr) : a.bits.unmap = a.bits := unmap_unmap _

theorem isLoopback_bits (a : Addr) : a.bits.isLoopback = a.isLoopback := by
  rw [isLoopback, unmap_bits, bits_eq, isLoopback]
  cases a.unmap <;> rfl

theorem isPrivate_bits (a : Addr) : a.bits.isPrivate = a.isPrivate := by
  rw [isPrivate, unmap_bits, bits_eq, isPrivate]
  cases a.unmap <;> rfl

theorem isLinkLocalUnicast_bits (a : Addr) : a.bits.isLinkLocalUnicast = a.isLinkLocalUnicast := by
  rw [isLinkLocalUnicast, unmap_bits, bits_eq, isLinkLocalUnicast]
  cases a.unmap <;> rfl

theorem isMulticast_bits (a : Addr) : a.bits.isMulticast = a.isMulticast := by
  rw [isMulticast, unmap_bits, bits_eq, isMulticast]
  cases a.unmap <;> rfl

end Addr

theorem yggdrasil_group (x : UInt16) (h : x &&& 0xfe00 = 0x0200) :
    x ≠ 0 ∧ x >>> 8 ≠ 0xff ∧ x &&& 0xffc0 ≠ 0xfe80 ∧ x &&& 0xfe00 ≠ 0xfc00 := by
  have hb := congrArg (fun y => y.toBitVec.getLsbD 15) h
  simp at hb
  refine ⟨?_, ?_, ?_, ?_⟩
  · rintro rfl
    cases h
  · intro hx
    have hx' := congrArg (fun y => y.toBitVec.getLsbD 7) hx
    simp [hb] at hx'
  · intro hx
    have hx' := congrArg (fun y => y.toBitVec.getLsbD 15) hx
    simp [hb] at hx'
  · rw [h]
    decide

theorem not_is4In6 (g : Groups) (zone : GoString)
    (h : g.1 = [0, 0, 0, 0, 0, 0, 0, 0] ∨ g.1.getD 0 0 &&& 0xfe00 = 0x0200) :
    (Addr.ip6 g zone).is4In6 = false := by
  apply decide_eq_false
  intro ht
  cases h with
  | inl h =>
    rw [h] at ht
    exact absurd ht (by decide)
  | inr h =>
    have h0 : g.1.getD 0 0 = 0 := by
      have h0 := congrArg (fun l => l.getD 0 0) ht
      simpa [List.getD_eq_getElem?_getD] using h0
    exact (yggdrasil_group _ h).1 h0

theorem masked_ip6 : masked mode (.ip6 g zone) = true ↔
    (mode = proxyModeDirect ∨ mode = proxyModeTor) ∧ zone ≠ [] ∧
      (g.1 = [0, 0, 0, 0, 0, 0, 0, 0] ∨ g.1.getD 0 0 &&& 0xfe00 = 0x0200) := by
  have hu : Addr.ip6 g [] = Addr.ip6Unspecified ↔ g.1 = [0, 0, 0, 0, 0, 0, 0, 0] := by
    rw [Addr.ip6Unspecified, Addr.ip6.injEq, Subtype.ext_iff]
    exact and_iff_left rfl
  have hy : yggdrasilContains (.ip6 g []) = true ↔ g.1.getD 0 0 &&& 0xfe00 = 0x0200 := by
    rw [yggdrasilContains, decide_eq_true_iff]
    exact and_iff_right rfl
  rw [masked, decide_eq_true_iff]
  simp only [Addr.zone, Addr.withoutZone, hu, hy]

theorem allowed_of_masked (h : masked mode a = true) : ipAllowedForMode a mode = true := by
  cases a with
  | zero => simp [masked, Addr.zone] at h
  | ip4 o => simp [masked, Addr.zone] at h
  | ip6 g zone =>
    obtain ⟨hm, hz, hg⟩ := masked_ip6.1 h
    have hu : (Addr.ip6 g zone).unmap = .ip6 g zone := by
      rw [Addr.unmap, not_is4In6 g zone hg]
      rfl
    have hn : (Addr.ip6 g zone) ≠ Addr.ip6Unspecified := by
      rw [Addr.ip6Unspecified, Ne, Addr.ip6.injEq]
      exact fun h => hz h.2
    have hc : g.1 ≠ [0, 0, 0, 0, 0, 0, 0, 1] ∧ g.1.getD 0 0 >>> 8 ≠ 0xff ∧
        g.1.getD 0 0 &&& 0xffc0 ≠ 0xfe80 ∧ g.1.getD 0 0 &&& 0xfe00 ≠ 0xfc00 := by
      cases hg with
      | inl hg =>
        rw [hg]
        decide
      | inr hg =>
        refine ⟨?_, (yggdrasil_group _ hg).2⟩
        intro he
        rw [he] at hg
        exact absurd hg (by decide)
    have hy : isYggdrasilIP (.ip6 g zone) = false := by
      simp [isYggdrasilIP, yggdrasilContains, hz]
    simp only [List.getD_eq_getElem?_getD] at hc
    rw [ipAllowedForMode, if_pos hm, hy]
    simp [isPublicIP, Addr.isValid, Addr.isGlobalUnicast, Addr.isPrivate, Addr.isLoopback,
      Addr.isLinkLocalUnicast, Addr.isMulticast, Addr.isUnspecified, hu, hn, hc,
      Addr.ip4Unspecified]

theorem Addr.bits_of_mapped (h : (Addr.ip6 g z).is4In6 = true) :
    (Addr.ip6 g z).bits = .ip4 (lowOctets g) := by
  rw [Addr.bits_eq, Addr.unmap, if_pos h]
  rfl

theorem Addr.bits_of_not_mapped (h : (Addr.ip6 g z).is4In6 = false) :
    (Addr.ip6 g z).bits = .ip6 g [] := by
  rw [Addr.bits_eq, Addr.unmap, h]
  rfl

theorem bits_public (hm : mode = proxyModeDirect ∨ mode = proxyModeTor)
    (h : isPublicIP a = true) (hy : isYggdrasilIP a = false) :
    (!a.bits.isUnspecified && !yggdrasilContains a.bits) = !masked mode a := by
  rw [isPublicIP] at h
  simp only [Bool.and_eq_true, Bool.not_eq_true'] at h
  obtain ⟨⟨⟨⟨⟨⟨hv, hg⟩, _⟩, _⟩, _⟩, _⟩, hu⟩ := h
  cases a with
  | zero => cases hv
  | ip4 o =>
    have hk : masked mode (.ip4 o) = false := by simp [masked, Addr.zone]
    have hb : (Addr.ip4 o).bits = .ip4 o := rfl
    rw [hk, hb, hu]
    rfl
  | ip6 g zone =>
    cases h4 : (Addr.ip6 g zone).is4In6 with
    | true =>
      have hk : masked mode (.ip6 g zone) = false := by
        apply Bool.eq_false_iff.2
        intro hk
        have := not_is4In6 g zone (masked_ip6.1 hk).2.2
        rw [h4] at this
        cases this
      have hun : (Addr.ip6 g zone).unmap = .ip4 (Addr.lowOctets g) := by rw [Addr.unmap, if_pos h4]
      have hs : Addr.ip4 (Addr.lowOctets g) ≠ Addr.ip4Unspecified := by
        intro he
        rw [Addr.isGlobalUnicast, hun, he] at hg
        simp at hg
      rw [hk, Addr.bits_of_mapped h4]
      simp [Addr.isUnspecified, yggdrasilContains, hs, Addr.ip6Unspecified]
    | false =>
      have hb := Addr.bits_of_not_mapped h4
      by_cases hz : zone = []
      · have hk : masked mode (.ip6 g zone) = false := by simp [masked, Addr.zone, hz]
        have hyc : yggdrasilContains (.ip6 g zone) = false := by
          rw [isYggdrasilIP, hv, Bool.true_and] at hy
          exact hy
        rw [hk, hb, ← hz, hu, hyc]
        rfl
      · have hi : (Addr.ip6 g []).isUnspecified = decide (g.1 = [0, 0, 0, 0, 0, 0, 0, 0]) := by
          simp [Addr.isUnspecified, Addr.ip4Unspecified, Addr.ip6Unspecified, Subtype.ext_iff]
        have hyc : yggdrasilContains (.ip6 g []) = decide (g.1.getD 0 0 &&& 0xfe00 = 0x0200) := by
          simp [yggdrasilContains]
        apply Bool.eq_iff_iff.2
        rw [hb, hi, hyc, Bool.not_eq_true', ← Bool.not_eq_true, masked_ip6]
        simp only [Bool.and_eq_true, Bool.not_eq_true', decide_eq_false_iff_not, hm, hz, true_and,
          ne_eq, not_false_eq_true, not_or]

/-- Of the addresses the guard lets through, exactly the masked ones have refused bits. -/
theorem bitsAllowed_of_allowed (h : ipAllowedForMode a mode = true) :
    bitsAllowed mode a = !masked mode a := by
  rw [ipAllowedForMode] at h
  split at h
  · rename_i hm
    rw [Bool.and_eq_true, Bool.not_eq_true'] at h
    have hb := bits_public hm h.1 h.2
    have hp := h.1
    rw [isPublicIP] at hp
    simp only [Bool.and_eq_true, Bool.not_eq_true'] at hp
    obtain ⟨⟨⟨⟨⟨_, hp⟩, hl⟩, hll⟩, hmc⟩, _⟩ := hp
    rw [← hb, bitsAllowed, if_pos hm, Addr.isLoopback_bits, Addr.isPrivate_bits,
      Addr.isLinkLocalUnicast_bits, Addr.isMulticast_bits, hl, hp, hll, hmc]
    simp
  · rename_i hm
    split at h
    · rename_i hy
      have hk : masked mode a = false := by simp [masked, hm]
      rw [hk, bitsAllowed, if_neg hm, if_pos hy]
      rw [isYggdrasilIP, Bool.and_eq_true] at h
      cases a with
      | zero => cases h.1
      | ip4 o => cases h.2
      | ip6 g zone =>
        have hg := of_decide_eq_true h.2
        rw [Addr.bits_of_not_mapped (not_is4In6 g zone (.inr hg.2))]
        simp only [yggdrasilContains, hg.2, and_self, decide_true, Bool.not_false]
    · cases h

end HyruleProxy
