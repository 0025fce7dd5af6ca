import HyruleProxy.GoString

namespace HyruleProxy
set_option autoImplicit true

/-- The four octets of an IPv4 address. -/
abbrev Octets := { o : List UInt8 // o.length = 4 }

/-- The eight 16-bit groups of an IPv6 address. -/
abbrev Groups := { g : List UInt16 // g.length = 8 }

/-- The values of `netip.Addr`: the zero address, an IPv4 address, or an IPv6 address with
its zone, which is empty when there is none. -/
inductive Addr where
  | zero
  | ip4 (octets : Octets)
  | ip6 (groups : Groups) (zone : GoString)
  deriving DecidableEq

def ch (c : Char) : UInt8 := c.toUInt8

def decDigit (b : UInt8) : Option Nat :=
  if ch '0' ≤ b ∧ b ≤ ch '9' then some (b.toNat - 48) else none

def hexDigit (b : UInt8) : Option Nat :=
  if ch '0' ≤ b ∧ b ≤ ch '9' then some (b.toNat - 48)
  else if ch 'a' ≤ b ∧ b ≤ ch 'f' then some (b.toNat - 87)
  else if ch 'A' ≤ b ∧ b ≤ ch 'F' then some (b.toNat - 55)
  else none

/-- The loop of `parseIPv4Fields`, with the octets read so far, the value of the current one
and its number of digits. -/
def parseIPv4Fields : GoString → List UInt8 → Nat → Nat → Option (List UInt8)
  | [], fields, val, _ => if fields.length < 3 then none else some (fields ++ [val.toUInt8])
  | b :: s, fields, val, digLen =>
    match decDigit b with
    | some d =>
      if digLen = 1 ∧ val = 0 then none
      else if val * 10 + d > 255 then none
      else parseIPv4Fields s fields (val * 10 + d) (digLen + 1)
    | none =>
      if b = ch '.' then
        if digLen = 0 ∨ s = [] then none
        else if fields.length = 3 then none
        else parseIPv4Fields s (fields ++ [val.toUInt8]) 0 0
      else none

def mkIP4 (o : List UInt8) : Option Addr :=
  if h : o.length = 4 then some (.ip4 ⟨o, h⟩) else none

def parseIPv4 (s : GoString) : Option Addr := (parseIPv4Fields s [] 0 0).bind mkIP4

/-- One hexadecimal group: its number of digits, its value and the text after it. -/
def parseHexGroup : GoString → Nat → Nat → Option (Nat × Nat × GoString)
  | [], off, acc => some (off, acc, [])
  | b :: s, off, acc =>
    match hexDigit b with
    | none => some (off, acc, b :: s)
    | some d =>
      if off > 3 then none
      else if acc * 16 + d > 65535 then none
      else parseHexGroup s (off + 1) (acc * 16 + d)

/-- The two groups that hold an embedded IPv4 address. -/
def octetGroups : List UInt8 → List UInt16
  | [a, b, c, d] => [a.toUInt16 * 256 + b.toUInt16, c.toUInt16 * 256 + d.toUInt16]
  | _ => []

/-- The loop of `parseIPv6` over the colon-separated groups, which returns the groups read, the
position of the ellipsis and the unread text. -/
def parseIPv6Groups : Nat → GoString → List UInt16 → Option Nat →
    Option (List UInt16 × Option Nat × GoString)
  | 0, s, gs, ellipsis => some (gs, ellipsis, s)
  | n + 1, s, gs, ellipsis =>
    match parseHexGroup s 0 0 with
    | none => none
    | some (off, acc, rest) =>
      if off = 0 then none
      else if rest.head? = some (ch '.') then
        if ellipsis = none ∧ gs.length ≠ 6 then none
        else if gs.length + 2 > 8 then none
        else (parseIPv4Fields s [] 0 0).map fun o => (gs ++ octetGroups o, ellipsis, [])
      else
        match rest with
        | [] => some (gs ++ [acc.toUInt16], ellipsis, [])
        | [_] => none
        | b :: c :: t =>
          if b ≠ ch ':' then none
          else if c = ch ':' then
            if ellipsis.isSome then none
            else if t = [] then some (gs ++ [acc.toUInt16], some (gs.length + 1), [])
            else parseIPv6Groups n t (gs ++ [acc.toUInt16]) (some (gs.length + 1))
          else parseIPv6Groups n (c :: t) (gs ++ [acc.toUInt16]) ellipsis

def mkIP6 (zone : GoString) (g : List UInt16) : Option Addr :=
  if h : g.length = 8 then some (.ip6 ⟨g, h⟩ zone) else none

/-- The end of `parseIPv6`: the whole text is used and the ellipsis stands for at least one
group of zeros. -/
def expandEllipsis (zone : GoString) : List UInt16 × Option Nat × GoString → Option Addr
  | (gs, ellipsis, rest) =>
    if rest ≠ [] then none
    else if gs.length < 8 then
      match ellipsis with
      | none => none
      | some e => mkIP6 zone (gs.take e ++ List.replicate (8 - gs.length) 0 ++ gs.drop e)
    else if ellipsis.isSome then none
    else mkIP6 zone gs

def parseIPv6Body (s zone : GoString) : Option Addr :=
  if (ch ':' :: ch ':' :: []).isPrefixOf s then
    if s.drop 2 = [] then mkIP6 zone (List.replicate 8 0)
    else (parseIPv6Groups 8 (s.drop 2) [] (some 0)).bind (expandEllipsis zone)
  else (parseIPv6Groups 8 s [] none).bind (expandEllipsis zone)

def parseIPv6 (s : GoString) : Option Addr :=
  if ch '%' ∈ s then
    let zone := (s.dropWhile (· ≠ ch '%')).tail
    if zone = [] then none else parseIPv6Body (s.takeWhile (· ≠ ch '%')) zone
  else parseIPv6Body s []

/-- The model of `netip.ParseAddr`: the first dot, colon or percent sign decides the form. -/
def parseAddr (s : GoString) : Option Addr :=
  match s.find? (fun b => b = ch '.' ∨ b = ch ':' ∨ b = ch '%') with
  | none => none
  | some b => if b = ch '.' then parseIPv4 s else if b = ch ':' then parseIPv6 s else none

namespace Addr

def zone : Addr → GoString
  | ip6 _ z => z
  | _ => []

def withoutZone : Addr → Addr
  | ip6 g _ => ip6 g []
  | a => a

def bitLen : Addr → Nat
  | zero => 0
  | ip4 _ => 32
  | ip6 _ _ => 128

def isValid (a : Addr) : Bool := a ≠ zero

def is4In6 : Addr → Bool
  | ip6 g _ => g.1.take 6 = [0, 0, 0, 0, 0, 0xffff]
  | _ => false

/-- The four octets in the last two groups. -/
def lowOctets (g : Groups) : Octets :=
  ⟨[(g.1.getD 6 0 >>> 8).toUInt8, (g.1.getD 6 0).toUInt8, (g.1.getD 7 0 >>> 8).toUInt8,
    (g.1.getD 7 0).toUInt8], rfl⟩

/-- An IPv4-mapped address becomes the IPv4 address inside it and loses its zone. -/
def unmap (a : Addr) : Addr :=
  match a with
  | ip6 g _ => if a.is4In6 then ip4 (lowOctets g) else a
  | _ => a

def ip4Unspecified : Addr := ip4 ⟨[0, 0, 0, 0], rfl⟩

def ip6Unspecified : Addr := ip6 ⟨[0, 0, 0, 0, 0, 0, 0, 0], rfl⟩ []

def isUnspecified (a : Addr) : Bool := a = ip4Unspecified ∨ a = ip6Unspecified

def isLoopback (a : Addr) : Bool :=
  match a.unmap with
  | ip4 o => o.1.getD 0 0 = 127
  | ip6 g _ => g.1 = [0, 0, 0, 0, 0, 0, 0, 1]
  | zero => false

def isMulticast (a : Addr) : Bool :=
  match a.unmap with
  | ip4 o => o.1.getD 0 0 &&& 0xf0 = 0xe0
  | ip6 g _ => g.1.getD 0 0 >>> 8 = 0xff
  | zero => false

def isLinkLocalUnicast (a : Addr) : Bool :=
  match a.unmap with
  | ip4 o => o.1.getD 0 0 = 169 ∧ o.1.getD 1 0 = 254
  | ip6 g _ => g.1.getD 0 0 &&& 0xffc0 = 0xfe80
  | zero => false

def isPrivate (a : Addr) : Bool :=
  match a.unmap with
  | ip4 o => o.1.getD 0 0 = 10 ∨ (o.1.getD 0 0 = 172 ∧ o.1.getD 1 0 &&& 0xf0 = 16) ∨
      (o.1.getD 0 0 = 192 ∧ o.1.getD 1 0 = 168)
  | ip6 g _ => g.1.getD 0 0 &&& 0xfe00 = 0xfc00
  | zero => false

def isGlobalUnicast (a : Addr) : Bool :=
  if a = zero then false
  else
    let b := a.unmap
    if b = ip4Unspecified ∨ b = ip4 ⟨[255, 255, 255, 255], rfl⟩ then false
    else b ≠ ip6Unspecified && !b.isLoopback && !b.isMulticast && !b.isLinkLocalUnicast

end Addr

theorem decDigit_ascii (h : decDigit b = some d) : b < 128 := by
  rw [decDigit] at h
  split at h
  · rename_i hb
    exact UInt8.lt_of_le_of_lt hb.2 (by decide)
  · cases h

theorem hexDigit_ascii (h : hexDigit b = some d) : b < 128 := by
  rw [hexDigit] at h
  split at h
  · rename_i hb
    exact UInt8.lt_of_le_of_lt hb.2 (by decide)
  · split at h
    · rename_i hb
      exact UInt8.lt_of_le_of_lt hb.2 (by decide)
    · split at h
      · rename_i hb
        exact UInt8.lt_of_le_of_lt hb.2 (by decide)
      · cases h

theorem parseIPv4Fields_ascii (h : parseIPv4Fields s fields val n = some o) : IsASCII s := by
  induction s generalizing fields val n with
  | nil => exact .nil
  | cons b s ih =>
    rw [parseIPv4Fields] at h
    split at h
    · rename_i hd
      split at h
      · cases h
      · split at h
        · cases h
        · exact .cons (decDigit_ascii hd) (ih h)
    · split at h
      · rename_i hb
        split at h
        · cases h
        · split at h
          · cases h
          · exact .cons (by rw [hb]; decide) (ih h)
      · cases h

theorem parseHexGroup_ascii (h : parseHexGroup s off acc = some (off', acc', rest)) :
    ∃ t, s = t ++ rest ∧ IsASCII t := by
  induction s generalizing off acc with
  | nil =>
    cases h
    exact ⟨[], rfl, .nil⟩
  | cons b s ih =>
    rw [parseHexGroup] at h
    split at h
    · cases h
      exact ⟨[], rfl, .nil⟩
    · rename_i hd
      split at h
      · cases h
      · split at h
        · cases h
        · obtain ⟨t, ht, ha⟩ := ih h
          exact ⟨b :: t, by rw [ht]; rfl, .cons (hexDigit_ascii hd) ha⟩

theorem parseIPv6Groups_ascii (h : parseIPv6Groups n s gs e = some (gs', e', rest)) :
    ∃ t, s = t ++ rest ∧ IsASCII t := by
  induction n generalizing s gs e with
  | zero =>
    cases h
    exact ⟨[], rfl, .nil⟩
  | succ n ih =>
    rw [parseIPv6Groups] at h
    split at h
    · cases h
    · rename_i off acc rest₁ hg
      obtain ⟨t, ht, ha⟩ := parseHexGroup_ascii hg
      split at h
      · cases h
      · split at h
        · split at h
          · cases h
          · split at h
            · cases h
            · obtain ⟨o, ho, he⟩ := Option.map_eq_some_iff.1 h
              cases he
              exact ⟨s, (List.append_nil s).symm, parseIPv4Fields_ascii ho⟩
        · split at h
          · cases h
            exact ⟨t, ht, ha⟩
          · cases h
          · rename_i b c u _
            split at h
            · cases h
            · rename_i hb
              have hb : IsASCII [b] := .cons (by rw [not_not.1 hb]; decide) .nil
              split at h
              · rename_i hc
                have hc : IsASCII [c] := .cons (by rw [hc]; decide) .nil
                split at h
                · cases h
                · split at h
                  · rename_i hu
                    cases h
                    exact ⟨t ++ [b, c], by simp [ht, hu], ha.append (hb.append hc)⟩
                  · obtain ⟨v, hv, hva⟩ := ih h
                    exact ⟨t ++ ([b, c] ++ v), by simp [ht, hv],
                      ha.append ((hb.append hc).append hva)⟩
              · obtain ⟨v, hv, hva⟩ := ih h
                exact ⟨t ++ ([b] ++ v), by simp [ht, hv], ha.append (hb.append hva)⟩
theorem expandEllipsis_rest (h : expandEllipsis zone (gs, e, rest) = some a) : rest = [] := by
  simp only [expandEllipsis] at h
  split at h
  · cases h
  · rename_i hr
    exact not_not.1 hr

theorem parseIPv6Groups_bind_ascii
    (h : (parseIPv6Groups n s gs e).bind (expandEllipsis zone) = some a) : IsASCII s := by
  obtain ⟨⟨gs', e', rest⟩, hg, he⟩ := Option.bind_eq_some_iff.1 h
  obtain ⟨t, rfl, ha⟩ := parseIPv6Groups_ascii hg
  rw [expandEllipsis_rest he, List.append_nil]
  exact ha

theorem parseIPv6Body_ascii (h : parseIPv6Body s zone = some a) : IsASCII s := by
  rw [parseIPv6Body] at h
  split at h
  · rename_i hp
    obtain ⟨t, rfl⟩ := List.isPrefixOf_iff_prefix.1 hp
    have hc : IsASCII (ch ':' :: ch ':' :: []) := .cons (by decide) (.cons (by decide) .nil)
    refine hc.append ?_
    split at h
    · rename_i ht
      have ht : t = [] := ht
      rw [ht]
      exact .nil
    · exact parseIPv6Groups_bind_ascii h
  · exact parseIPv6Groups_bind_ascii h

theorem mkIP6_zone (h : mkIP6 zone g = some a) : ∃ g', a = .ip6 g' zone := by
  rw [mkIP6] at h
  split at h
  · cases h
    exact ⟨_, rfl⟩
  · cases h

theorem expandEllipsis_zone (h : expandEllipsis zone x = some a) : ∃ g, a = .ip6 g zone := by
  obtain ⟨gs, e, rest⟩ := x
  simp only [expandEllipsis] at h
  split at h
  · cases h
  · split at h
    · split at h
      · cases h
      · exact mkIP6_zone h
    · split at h
      · cases h
      · exact mkIP6_zone h

theorem parseIPv6Body_zone (h : parseIPv6Body s zone = some a) : ∃ g, a = .ip6 g zone := by
  rw [parseIPv6Body] at h
  split at h
  · split at h
    · exact mkIP6_zone h
    · obtain ⟨x, _, hx⟩ := Option.bind_eq_some_iff.1 h
      exact expandEllipsis_zone hx
  · obtain ⟨x, _, hx⟩ := Option.bind_eq_some_iff.1 h
    exact expandEllipsis_zone hx

theorem parseAddr_ascii (h : parseAddr s = some a) (hz : a.zone = []) : IsASCII s := by
  rw [parseAddr] at h
  split at h
  · cases h
  · split at h
    · obtain ⟨o, ho, _⟩ := Option.bind_eq_some_iff.1 h
      exact parseIPv4Fields_ascii ho
    · split at h
      · rw [parseIPv6] at h
        split at h
        · simp only at h
          split at h
          · cases h
          · rename_i hne
            obtain ⟨g, rfl⟩ := parseIPv6Body_zone h
            exact absurd hz hne
        · exact parseIPv6Body_ascii h
      · cases h

end HyruleProxy
