import HyruleProxy.NetIP
import HyruleProxy.GoMap

namespace HyruleProxy
set_option autoImplicit true

/-- Instants and durations are counted in nanoseconds. -/
abbrev Time := Int

abbrev Duration := Int

/-- The status text of a lease; a row written by another program can hold any other text. -/
inductive Status where
  | active
  | expired
  | revoked
  | other (text : GoString)
  deriving DecidableEq

/-- A single reverse-tunnel reservation. -/
structure Lease where
  leaseID : GoString
  token : GoString
  allocatedPort : Int
  allowlistCIDRs : List GoString
  createdAt : Time
  expiresAt : Time
  status : Status
  deriving DecidableEq

def Lease.expired (l : Lease) (now : Time) : Bool := !decide (now < l.expiresAt)

@[simp] theorem Lease.expired_eq_true {l : Lease} : l.expired now = true ↔ l.expiresAt ≤ now := by
  simp [Lease.expired]

@[simp] theorem Lease.expired_eq_false {l : Lease} : l.expired now = false ↔ now < l.expiresAt := by
  simp [Lease.expired]

def splitSlash : GoString → Option (GoString × GoString)
  | [] => none
  | b :: s => if b = ch '/' then some ([], s) else (splitSlash s).map fun p => (b :: p.1, p.2)

/-- The decimal prefix length after the slash (`dtoi`), which must be all of the text. -/
def parseMask : GoString → Nat → Option Nat
  | [], n => some n
  | b :: s, n =>
    match decDigit b with
    | none => none
    | some d => if n * 10 + d ≥ 0xFFFFFF then none else parseMask s (n * 10 + d)

/-- The model of `net.ParseCIDR`: an address without a zone and its prefix length. -/
def parseCIDR (s : GoString) : Option (Addr × Nat) :=
  match splitSlash s with
  | none => none
  | some (addr, mask) =>
    match parseAddr addr with
    | none => none
    | some a =>
      if a.zone ≠ [] ∨ mask = [] then none
      else
        match parseMask mask 0 with
        | none => none
        | some n => if n > a.bitLen then none else some (a, n)

theorem splitSlash_eq (h : splitSlash s = some (t, u)) : s = t ++ ch '/' :: u := by
  induction s generalizing t with
  | nil => cases h
  | cons b s ih =>
    rw [splitSlash] at h
    split at h
    · rename_i hb
      cases h
      rw [hb]
      rfl
    · obtain ⟨⟨t', u'⟩, hs, he⟩ := Option.map_eq_some_iff.1 h
      cases he
      rw [ih hs]
      rfl

theorem parseMask_ascii (h : parseMask s n = some m) : IsASCII s := by
  induction s generalizing n with
  | nil => exact .nil
  | cons b s ih =>
    rw [parseMask] at h
    split at h
    · cases h
    · rename_i hd
      split at h
      · cases h
      · exact .cons (decDigit_ascii hd) (ih h)

theorem parseCIDR_ascii (h : (parseCIDR s).isSome) : IsASCII s := by
  obtain ⟨x, hx⟩ := Option.isSome_iff_exists.1 h
  rw [parseCIDR] at hx
  split at hx
  · cases hx
  · rename_i addr mask hs
    split at hx
    · cases hx
    · rename_i a ha
      split at hx
      · cases hx
      · rename_i hz
        split at hx
        · cases hx
        · rename_i n hm
          have hz : a.zone = [] := by
            by_contra he
            exact hz (.inl he)
          rw [splitSlash_eq hs]
          exact (parseAddr_ascii ha hz).append (.cons (by decide) (parseMask_ascii hm))

/-- The JSON object of a lease. JSON text is Unicode, so its strings are lists of runes. -/
structure LeaseJSON where
  leaseID : List Char
  token : List Char
  allocatedPort : Int
  allowlistCIDRs : List (List Char)
  createdAt : Time
  expiresAt : Time
  status : Status
  deriving DecidableEq

/-- A value in the bucket: a lease object, or bytes that `json.Unmarshal` refuses. -/
inductive Row where
  | object (o : LeaseJSON)
  | malformed
  deriving DecidableEq

/-- `json.Marshal` writes each byte of a string that is not UTF-8 as U+FFFD. -/
def Lease.marshal (l : Lease) : Row :=
  .object {
    leaseID := runes l.leaseID
    token := runes l.token
    allocatedPort := l.allocatedPort
    allowlistCIDRs := l.allowlistCIDRs.map runes
    createdAt := l.createdAt
    expiresAt := l.expiresAt
    status := l.status }

def Row.unmarshal : Row → Option Lease
  | .malformed => none
  | .object o => some {
      leaseID := utf8Encode o.leaseID
      token := utf8Encode o.token
      allocatedPort := o.allocatedPort
      allowlistCIDRs := o.allowlistCIDRs.map utf8Encode
      createdAt := o.createdAt
      expiresAt := o.expiresAt
      status := o.status }

theorem Lease.unmarshal_marshal (l : Lease) :
    l.marshal.unmarshal = some { l with
      leaseID := toValidUTF8 l.leaseID
      token := toValidUTF8 l.token
      allowlistCIDRs := l.allowlistCIDRs.map toValidUTF8 } := by
  simp only [Lease.marshal, Row.unmarshal, List.map_map]
  rfl

end HyruleProxy
