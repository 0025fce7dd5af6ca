import HyruleProxy.IPPolicy
import HyruleProxy.NetURLText

namespace HyruleProxy
set_option autoImplicit true

/-- The answer of `net.LookupIP` to one call: the addresses as byte slices, or the error's text. -/
abbrev LookupIP := GoString → Except GoString (List (List UInt8))

def sliceGroups : List UInt8 → List UInt16
  | a :: b :: s => (a.toUInt16 * 256 + b.toUInt16) :: sliceGroups s
  | _ => []

def addrFromSlice (ip : List UInt8) : Option Addr :=
  if ip.length = 4 then mkIP4 ip else if ip.length = 16 then mkIP6 [] (sliceGroups ip) else none

def defaultResolver (lookup : LookupIP) : Resolver := fun host =>
  (lookup host).map fun ips => ips.filterMap fun ip => (addrFromSlice ip).map Addr.unmap

def maxURLLength : Nat := 2048

def allowedMethods : List GoString := [lit "GET", lit "HEAD", lit "POST"]

section
variable (U : Unicode)

def normalizeMethod (method : GoString) : Except GoError GoString :=
  let method := toUpper U (trimSpace method)
  let method := if method = [] then lit "GET" else method
  if method ∈ allowedMethods then .ok method
  else .error (.plain (lit "unsupported HTTP method: " ++ method))

/-- A host name without its root dot and in lower case. -/
def canonicalHost (hostname : GoString) : GoString := toLower U (trimSuffix hostname (lit "."))

/-- The switch of `ParseAndValidateURL` over the modes. -/
def modeDenial (mode host : GoString) : Option GoError :=
  if mode = proxyModeDirect then
    if hasSuffix host (lit ".onion") || hasSuffix host (lit ".i2p") then
      some (errPolicyDenied (lit "direct mode cannot access alternate-network names"))
    else none
  else if mode = proxyModeTor then
    if hasSuffix host (lit ".i2p") then
      some (errPolicyDenied (lit "tor mode cannot access .i2p names"))
    else none
  else if mode = proxyModeI2P then
    if hasSuffix host (lit ".i2p") then none
    else some (errPolicyDenied (lit "i2p mode requires .i2p hostnames"))
  else if mode = proxyModeYggdrasil then
    if hasSuffix host (lit ".onion") || hasSuffix host (lit ".i2p") then
      some (errPolicyDenied (lit "yggdrasil mode cannot access .onion or .i2p names"))
    else none
  else some (.plain (lit "unsupported proxy mode: " ++ mode))

def parseAndValidateURL (raw mode : GoString) : Except GoError URL :=
  if raw.length > maxURLLength then .error (.plain (lit "URL exceeds 2048 byte limit"))
  else
    match urlParse raw with
    | .error e => .error (.plain (lit "invalid URL: " ++ e.text U))
    | .ok parsed =>
      if parsed.scheme ≠ lit "http" ∧ parsed.scheme ≠ lit "https" then
        .error (.plain (lit "unsupported URL scheme"))
      else if parsed.hostname = [] then .error (.plain (lit "invalid URL: host is required"))
      else if parsed.user.isSome then .error (.plain (lit "URL userinfo is not allowed"))
      else
        match modeDenial mode (canonicalHost U parsed.hostname) with
        | some e => .error e
        | none => .ok parsed

/-- `ValidateResolvedHost`, with its question to the resolver still to be answered. -/
def validateResolvedHostQ (host mode : GoString) : Lookups (Except GoError Unit) :=
  let host := trim host (lit "[]")
  match parseAddr host with
  | some ip =>
    if ipAllowedForMode ip mode then .done (.ok ())
    else .done (.error (errPolicyDenied (lit "destination IP " ++ ip.string ++
      lit " is disallowed for " ++ mode)))
  | none =>
    if isLocalhost U host then .done (.error (errPolicyDenied (lit "localhost is disallowed")))
    else if hasSuffix (toLower U host) (lit ".onion") ||
        hasSuffix (toLower U host) (lit ".i2p") then
      .done (.ok ())
    else
      .ask host fun answer =>
        match answer with
        | .error e => .done (.error (.plain e))
        | .ok addrs =>
          if addrs = [] then .done (.error (.plain (lit "host resolved to no addresses")))
          else
            match addrs.find? fun addr => !ipAllowedForMode addr mode with
            | some addr =>
              .done
                (.error (errPolicyDenied (lit "host resolves to disallowed IP " ++ addr.string)))
            | none => .done (.ok ())

def validateResolvedHost (host mode : GoString) (resolver : Resolver) : Except GoError Unit :=
  (validateResolvedHostQ U host mode).run resolver

def itoa (n : Int) : GoString := lit (toString n)

def redirectPolicyQ (mode : GoString) (maxRedirects : Int) (req : URL) (via : List URL) :
    Lookups (Except GoError Unit) :=
  if (via.length : Int) > maxRedirects then
    .done (.error (.plain (lit "stopped after " ++ itoa maxRedirects ++ lit " redirects")))
  else
    match parseAndValidateURL U req.string mode with
    | .error e => .done (.error e)
    | .ok _ => validateResolvedHostQ U req.hostname mode

def redirectPolicy (mode : GoString) (maxRedirects : Int) (resolver : Resolver) (req : URL)
    (via : List URL) : Except GoError Unit :=
  (redirectPolicyQ U mode maxRedirects req via).run resolver

/-- The rule of a mode on the canonical name of a host. -/
def nameRule (mode host : GoString) : Bool :=
  if mode = proxyModeDirect ∨ mode = proxyModeYggdrasil then
    !hasSuffix host (lit ".onion") && !hasSuffix host (lit ".i2p")
  else if mode = proxyModeTor then !hasSuffix host (lit ".i2p")
  else if mode = proxyModeI2P then hasSuffix host (lit ".i2p")
  else false

/-- What the policy asks of a URL that a request goes to. -/
structure Meets (mode : GoString) (u : URL) : Prop where
  scheme : u.scheme = lit "http" ∨ u.scheme = lit "https"
  hostname : u.hostname ≠ []
  user : u.user = none
  name : nameRule mode (canonicalHost U u.hostname) = true

end

theorem modeDenial_eq_none : modeDenial mode host = none ↔ nameRule mode host = true := by
  have h1 : proxyModeTor ≠ proxyModeDirect := by decide
  have h2 : proxyModeTor ≠ proxyModeYggdrasil := by decide
  have h3 : proxyModeI2P ≠ proxyModeDirect := by decide
  have h4 : proxyModeI2P ≠ proxyModeYggdrasil := by decide
  have h5 : proxyModeI2P ≠ proxyModeTor := by decide
  have h6 : proxyModeYggdrasil ≠ proxyModeDirect := by decide
  rw [modeDenial, nameRule]
  by_cases hd : mode = proxyModeDirect
  · simp [hd]
  · by_cases ht : mode = proxyModeTor
    · simp [ht, h1, h2]
    · by_cases hi : mode = proxyModeI2P
      · simp [hi, h3, h4, h5]
      · by_cases hy : mode = proxyModeYggdrasil
        · simp [hy, h6, h2.symm, h4.symm]
        · simp [hd, ht, hi, hy]

theorem parseAndValidateURL_eq_ok :
    parseAndValidateURL U raw mode = .ok u ↔
      raw.length ≤ maxURLLength ∧ urlParse raw = .ok u ∧ Meets U mode u := by
  rw [parseAndValidateURL]
  constructor
  · intro h
    split at h
    · cases h
    · rename_i hl
      split at h
      · cases h
      · rename_i parsed hp
        split at h
        · cases h
        · rename_i hs
          split at h
          · cases h
          · rename_i hh
            split at h
            · cases h
            · rename_i hu
              split at h
              · cases h
              · rename_i hm
                cases h
                exact ⟨Nat.le_of_not_lt hl, hp, by tauto, hh, by simpa using hu,
                  modeDenial_eq_none.1 hm⟩
  · rintro ⟨hl, hp, hs, hh, hu, hm⟩
    rw [if_neg (Nat.not_lt.2 hl), hp]
    simp only
    rw [if_neg (by tauto), if_neg hh, if_neg (by simp [hu]), modeDenial_eq_none.2 hm]

end HyruleProxy
