import HyruleProxy.Lease
import HyruleProxy.HostPort

namespace HyruleProxy
set_option autoImplicit true

/-- A `net.IP`, where `none` is the nil slice. -/
abbrev IP := Option (List UInt8)

def v4InV6Prefix : List UInt8 := [0, 0, 0, 0, 0, 0, 0, 0, 0, 0, 0xff, 0xff]

def Addr.as16 : Addr → List UInt8
  | zero => List.replicate 16 0
  | ip4 o => v4InV6Prefix ++ o.1
  | ip6 g _ => g.1.flatMap fun x : UInt16 => [(x >>> 8).toUInt8, x.toUInt8]

/-- The model of `net.ParseIP`. -/
def parseIP (s : GoString) : IP :=
  match parseAddr s with
  | none => none
  | some a => if a.zone ≠ [] then none else some a.as16

def to4 (ip : List UInt8) : IP :=
  if ip.length = 4 then some ip
  else if ip.length = 16 ∧ ip.take 12 = v4InV6Prefix then some (ip.drop 12)
  else none

/-- The loop of `net.CIDRMask`, by the ones and the bytes that are left. -/
def cidrMask : Nat → Nat → List UInt8
  | _, 0 => []
  | ones, n + 1 =>
    if ones ≥ 8 then 0xff :: cidrMask (ones - 8) n
    else (~~~(0xff >>> ones.toUInt8)) :: cidrMask 0 n

/-- The model of `IP.Mask`, which adapts the longer of its arguments to the other. -/
def maskIP (ip mask : List UInt8) : IP :=
  let mask := if mask.length = 16 ∧ ip.length = 4 ∧ (mask.take 12).all (· = 0xff)
    then mask.drop 12 else mask
  let ip := if mask.length = 4 ∧ ip.length = 16 ∧ ip.take 12 = v4InV6Prefix
    then ip.drop 12 else ip
  if ip.length ≠ mask.length then none else some (ip.zipWith (· &&& ·) mask)

structure IPNet where
  ip : IP
  mask : List UInt8

def cidrNet (a : Addr) (n : Nat) : IPNet :=
  let mask := cidrMask n (a.bitLen / 8)
  ⟨maskIP a.as16 mask, mask⟩

/-- The second result of `net.ParseCIDR`. -/
def parseIPNet (s : GoString) : Option IPNet := (parseCIDR s).map fun (a, n) => cidrNet a n

namespace IPNet

/-- The network number and its mask, both empty for a net that is not well formed. -/
def networkNumberAndMask (n : IPNet) : List UInt8 × List UInt8 :=
  let bytes := n.ip.getD []
  match (to4 bytes).orElse fun _ => if bytes.length = 16 then some bytes else none with
  | none => ([], [])
  | some ip =>
    if n.mask.length = 4 then if ip.length = 4 then (ip, n.mask) else ([], [])
    else if n.mask.length = 16 then
      if ip.length = 4 then (ip, n.mask.drop 12) else (ip, n.mask)
    else ([], [])

def contains (n : IPNet) (ip : IP) : Bool :=
  let (nn, m) := n.networkNumberAndMask
  let ip := (to4 (ip.getD [])).getD (ip.getD [])
  if ip.length ≠ nn.length then false
  else nn.zipWith (· &&& ·) m = ip.zipWith (· &&& ·) m

end IPNet

/-- The source of a visitor: a `*net.TCPAddr`, or another address with its text. -/
inductive RemoteAddr where
  | tcp (ip : IP)
  | other (text : GoString)

def visitorIP : RemoteAddr → IP
  | .tcp ip => ip
  | .other text =>
    match splitHostPort text with
    | .error _ => none
    | .ok (host, _) => parseIP host

def parseCIDRs (cidrs : List GoString) : List IPNet := cidrs.filterMap parseIPNet

/-- The fields of a `forward` that restrict its visitors. -/
structure Restriction where
  allowNets : List IPNet
  allowlistSet : Bool

namespace Restriction

/-- What `StartForward` puts into these fields. -/
def ofLease (l : Lease) : Restriction where
  allowNets := parseCIDRs l.allowlistCIDRs
  allowlistSet := l.allowlistCIDRs.length > 0

def allows (f : Restriction) (ip : IP) : Bool :=
  if f.allowNets.length = 0 then !f.allowlistSet else f.allowNets.any (·.contains ip)

/-- The first check of `handleVisitor`. -/
def admits (f : Restriction) (addr : RemoteAddr) : Bool :=
  let ip := visitorIP addr
  if f.allowlistSet || f.allowNets.length > 0 then !(ip = none || !f.allows ip) else true

end Restriction

def Lease.allowsIP (l : Lease) (ip : IP) : Bool :=
  if l.allowlistCIDRs.length = 0 then true
  else l.allowlistCIDRs.any fun c => (parseIPNet c).any (·.contains ip)

section Nets

variable {a : Addr} {n : IPNet}

theorem parseAddr_ne_zero (h : parseAddr s = some a) : a ≠ .zero := by
  rw [parseAddr] at h
  split at h
  · cases h
  · split at h
    · obtain ⟨o, _, ho⟩ := Option.bind_eq_some_iff.1 h
      rw [mkIP4] at ho
      split at ho
      · cases ho
        exact Addr.noConfusion
      · cases ho
    · split at h
      · rw [parseIPv6] at h
        split at h
        · simp only at h
          split at h
          · cases h
          · obtain ⟨g, rfl⟩ := parseIPv6Body_zone h
            exact Addr.noConfusion
        · obtain ⟨g, rfl⟩ := parseIPv6Body_zone h
          exact Addr.noConfusion
      · cases h

theorem parseCIDR_addr (h : parseCIDR s = some (a, k)) : a ≠ .zero ∧ k ≤ a.bitLen := by
  rw [parseCIDR] at h
  split at h
  · cases h
  · split at h
    · cases h
    · rename_i ha
      split at h
      · cases h
      · split at h
        · cases h
        · split at h
          · cases h
          · rename_i hk
            cases h
            exact ⟨parseAddr_ne_zero ha, not_lt.1 hk⟩

theorem length_cidrMask (ones n : Nat) : (cidrMask ones n).length = n := by
  induction n generalizing ones with
  | zero => rfl
  | succ n ih =>
    rw [cidrMask]
    split <;> rw [List.length_cons, ih]

theorem length_as16_ip6 (g : Groups) (z : GoString) : (Addr.ip6 g z).as16.length = 16 := by
  rw [Addr.as16, List.length_flatMap]
  simp [g.2]

theorem networkNumber_ip4 (o : Octets) (k : Nat) :
    (cidrNet (.ip4 o) k).networkNumberAndMask =
      (o.1.zipWith (· &&& ·) (cidrMask k 4), cidrMask k 4) := by
  have hm := length_cidrMask k 4
  have ho := o.2
  have hip : cidrNet (.ip4 o) k =
      ⟨some (o.1.zipWith (· &&& ·) (cidrMask k 4)), cidrMask k 4⟩ := by
    simp [cidrNet, Addr.bitLen, maskIP, Addr.as16, v4InV6Prefix, hm, ho]
  rw [hip]
  simp [IPNet.networkNumberAndMask, to4, hm, ho]

theorem networkNumber_ip6 (g : Groups) (z : GoString) (k : Nat) :
    (cidrNet (.ip6 g z) k).networkNumberAndMask =
      let nn := (Addr.ip6 g z).as16.zipWith (· &&& ·) (cidrMask k 16)
      if nn.take 12 = v4InV6Prefix then (nn.drop 12, (cidrMask k 16).drop 12)
      else (nn, cidrMask k 16) := by
  have hm := length_cidrMask k 16
  have ho := length_as16_ip6 g z
  have hip : cidrNet (.ip6 g z) k =
      ⟨some ((Addr.ip6 g z).as16.zipWith (· &&& ·) (cidrMask k 16)), cidrMask k 16⟩ := by
    simp [cidrNet, Addr.bitLen, maskIP, hm, ho]
  have hlen : ((Addr.ip6 g z).as16.zipWith (· &&& ·) (cidrMask k 16)).length = 16 := by
    rw [List.length_zipWith, ho, hm, min_self]
  rw [hip]
  generalize (Addr.ip6 g z).as16.zipWith (· &&& ·) (cidrMask k 16) = nn at hlen
  by_cases hp : nn.take 12 = v4InV6Prefix
  · simp [IPNet.networkNumberAndMask, to4, hm, hlen, hp]
  · simp [IPNet.networkNumberAndMask, to4, hm, hlen, hp]

theorem networkNumber_ne_nil (a : Addr) (ha : a ≠ .zero) (k : Nat) :
    (cidrNet a k).networkNumberAndMask.1 ≠ [] := by
  apply List.ne_nil_of_length_pos
  cases a with
  | zero => exact absurd rfl ha
  | ip4 o =>
    rw [networkNumber_ip4, List.length_zipWith, o.2, length_cidrMask]
    decide
  | ip6 g z =>
    have hlen : ((Addr.ip6 g z).as16.zipWith (· &&& ·) (cidrMask k 16)).length = 16 := by
      rw [List.length_zipWith, length_as16_ip6, length_cidrMask, min_self]
    rw [networkNumber_ip6]
    simp only
    split
    · rw [List.length_drop, hlen]
      decide
    · rw [hlen]
      decide

theorem parseIPNet_contains_none (h : parseIPNet s = some n) : n.contains none = false := by
  obtain ⟨⟨a, k⟩, ha, rfl⟩ := Option.map_eq_some_iff.1 h
  have hnn := networkNumber_ne_nil a (parseCIDR_addr ha).1 k
  have hto4 : (to4 []).getD [] = [] := rfl
  simp only [IPNet.contains, Option.getD_none, hto4]
  exact if_pos (List.length_pos_iff.2 hnn).ne

end Nets

section Decision

variable {l l' : Lease} {addr : RemoteAddr} {ip : IP}

theorem Lease.allowsIP_eq_true : l.allowsIP ip = true ↔
    l.allowlistCIDRs = [] ∨ ∃ c ∈ l.allowlistCIDRs, ∃ n, parseIPNet c = some n ∧
      n.contains ip = true := by
  rw [Lease.allowsIP]
  by_cases h : l.allowlistCIDRs = []
  · simp [h]
  · simp [h, Option.any_eq_true]

theorem Restriction.allows_ofLease (l : Lease) (ip : IP) :
    (ofLease l).allows ip = l.allowsIP ip := by
  rw [Bool.eq_iff_iff, Lease.allowsIP_eq_true, allows, ofLease, parseCIDRs]
  split
  · rename_i h
    have hnone : ∀ c ∈ l.allowlistCIDRs, parseIPNet c = none :=
      List.filterMap_eq_nil_iff.1 (List.length_eq_zero_iff.1 h)
    constructor
    · intro hset
      exact .inl (by simpa using hset)
    · rintro (he | ⟨c, hc, n, hn, _⟩)
      · simp [he]
      · rw [hnone c hc] at hn
        cases hn
  · rename_i h
    have hne : l.allowlistCIDRs ≠ [] := by
      intro he
      rw [he] at h
      exact h rfl
    rw [or_iff_right hne, List.any_eq_true]
    constructor
    · rintro ⟨n, hn, hc⟩
      obtain ⟨c, hcm, hp⟩ := List.mem_filterMap.1 hn
      exact ⟨c, hcm, n, hp, hc⟩
    · rintro ⟨c, hcm, n, hp, hc⟩
      exact ⟨n, List.mem_filterMap.2 ⟨c, hcm, hp⟩, hc⟩

theorem Lease.allowsIP_none (h : l.allowlistCIDRs ≠ []) : l.allowsIP none = false := by
  rw [Bool.eq_false_iff, Ne, Lease.allowsIP_eq_true, or_iff_right h]
  rintro ⟨c, _, n, hn, hc⟩
  rw [parseIPNet_contains_none hn] at hc
  cases hc

theorem parseIPNet_eq_none : parseIPNet c = none ↔ parseCIDR c = none :=
  Option.map_eq_none_iff

theorem Lease.allowsIP_unparsed (h : l.allowlistCIDRs ≠ [])
    (hn : ∀ c ∈ l.allowlistCIDRs, parseCIDR c = none) : l.allowsIP ip = false := by
  rw [Bool.eq_false_iff, Ne, Lease.allowsIP_eq_true, or_iff_right h]
  rintro ⟨c, hc, n, hp, _⟩
  rw [parseIPNet_eq_none.2 (hn c hc)] at hp
  cases hp

theorem Lease.allowsIP_congr (h : ∀ c, c ∈ l'.allowlistCIDRs ↔ c ∈ l.allowlistCIDRs) (ip : IP) :
    l'.allowsIP ip = l.allowsIP ip := by
  have hnil : l'.allowlistCIDRs = [] ↔ l.allowlistCIDRs = [] := by
    simp only [List.eq_nil_iff_forall_not_mem, h]
  rw [Bool.eq_iff_iff, Lease.allowsIP_eq_true, Lease.allowsIP_eq_true, hnil]
  simp only [h]

theorem Restriction.admits_ofLease (l : Lease) (addr : RemoteAddr) :
    (ofLease l).admits addr = l.allowsIP (visitorIP addr) := by
  rw [admits, allows_ofLease]
  by_cases hl : l.allowlistCIDRs = []
  · have hopen : l.allowsIP (visitorIP addr) = true := Lease.allowsIP_eq_true.2 (.inl hl)
    simp [ofLease, parseCIDRs, hl, hopen]
  · have hset : (ofLease l).allowlistSet = true := by
      simpa [ofLease, List.length_pos_iff] using hl
    simp only [hset, Bool.true_or, if_true]
    cases hip : visitorIP addr with
    | none => simp [Lease.allowsIP_none hl]
    | some ip => simp

/-- The two checks agree on every visitor; a restricted lease admits nobody without an address
and nobody when no entry parses; and only the set of the entries matters. -/
theorem allowlists_agree (l : Lease) (addr : RemoteAddr) :
    (Restriction.ofLease l).admits addr = l.allowsIP (visitorIP addr) ∧
    (∀ ip, (Restriction.ofLease l).admits (.tcp ip) = l.allowsIP ip) ∧
    (l.allowlistCIDRs ≠ [] →
      visitorIP addr = none ∨ (∀ c ∈ l.allowlistCIDRs, parseCIDR c = none) →
      (Restriction.ofLease l).admits addr = false ∧ l.allowsIP (visitorIP addr) = false) ∧
    ∀ l' : Lease, (∀ c, c ∈ l'.allowlistCIDRs ↔ c ∈ l.allowlistCIDRs) →
      (Restriction.ofLease l').admits addr = (Restriction.ofLease l).admits addr ∧
      l'.allowsIP (visitorIP addr) = l.allowsIP (visitorIP addr) := by
  simp only [Restriction.admits_ofLease, true_and, and_self]
  refine ⟨fun _ => rfl, ?_, ?_⟩
  · rintro hne (hip | hn)
    · rw [hip]
      exact Lease.allowsIP_none hne
    · exact Lease.allowsIP_unparsed hne hn
  · intro l' h
    exact Lease.allowsIP_congr h _

end Decision

end HyruleProxy
