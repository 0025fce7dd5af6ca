import HyruleProxy.Quote

namespace HyruleProxy
set_option autoImplicit true

/-- The parts of a URL that `net/url` escapes each in its own way. -/
inductive Encoding where
  | path | userPassword | host | zone | fragment
  deriving DecidableEq

/-- The errors of `url.Parse`. -/
inductive URLError where
  | control
  | missingScheme
  | segmentColon
  | missingBracket
  | port (colonPort : GoString)
  | userinfo
  | escape (text : GoString)
  | invalidHost (text : GoString)
  deriving DecidableEq

/-- The `url.Error` of `url.Parse`, with the text it could not read. -/
structure ParseError where
  url : GoString
  err : URLError
  deriving DecidableEq

structure Userinfo where
  username : GoString
  password : Option GoString
  deriving DecidableEq

/-- A `url.URL`; `rootless` stands for its field `Opaque`. -/
structure URL where
  scheme : GoString := []
  rootless : GoString := []
  user : Option Userinfo := none
  host : GoString := []
  path : GoString := []
  rawPath : GoString := []
  omitHost : Bool := false
  forceQuery : Bool := false
  rawQuery : GoString := []
  fragment : GoString := []
  rawFragment : GoString := []
  deriving DecidableEq

def isDigit (b : UInt8) : Bool := ch '0' ≤ b && b ≤ ch '9'

def isAlpha (b : UInt8) : Bool := (ch 'a' ≤ b && b ≤ ch 'z') || (ch 'A' ≤ b && b ≤ ch 'Z')

def shouldEscape (mode : Encoding) (c : UInt8) : Bool :=
  if isAlpha c || isDigit c then false
  else if (mode = .host ∨ mode = .zone) ∧ (c ∈ lit "!$&'()*+,;=:[]<>" ∨ c = 34) then false
  else if c ∈ lit "-_.~" then false
  else if c ∈ lit "$&+,/:;=?@" then
    match mode with
    | .path => c = ch '?'
    | .userPassword => c = ch '@' ∨ c = ch '/' ∨ c = ch '?' ∨ c = ch ':'
    | .fragment => false
    | .host => true
    | .zone => true
  else if mode = .fragment ∧ c ∈ lit "!()*" then false
  else true

def upperHex (d : Nat) : UInt8 := if d < 10 then (48 + d).toUInt8 else (55 + d).toUInt8

def escapeByte (mode : Encoding) (b : UInt8) : GoString :=
  if shouldEscape mode b then [ch '%', upperHex (b.toNat / 16), upperHex (b.toNat % 16)] else [b]

def escape (mode : Encoding) (s : GoString) : GoString := s.flatMap (escapeByte mode)

/-- Whether the escape `%xy` of the byte `v` may stand in the part. -/
def escapeAllowed (mode : Encoding) (x y : UInt8) (v : UInt8) : Bool :=
  match mode with
  | .host => 0x80 ≤ v ∨ (x = ch '2' ∧ y = ch '5')
  | .zone => (x = ch '2' ∧ y = ch '5') ∨ v = ch ' ' ∨ shouldEscape .host v = false
  | _ => true

def byteAllowed (mode : Encoding) (b : UInt8) : Bool :=
  match mode with
  | .host => 0x80 ≤ b ∨ shouldEscape .host b = false
  | .zone => 0x80 ≤ b ∨ shouldEscape .zone b = false
  | _ => true

def unescape (mode : Encoding) : GoString → Except URLError GoString
  | [] => .ok []
  | b :: s =>
    if b = ch '%' then
      match s with
      | x :: y :: t =>
        match hexDigit x, hexDigit y with
        | some h, some l =>
          if escapeAllowed mode x y (h * 16 + l).toUInt8 then
            (unescape mode t).map ((h * 16 + l).toUInt8 :: ·)
          else .error (.escape [b, x, y])
        | _, _ => .error (.escape [b, x, y])
      | _ => .error (.escape (b :: s))
    else if byteAllowed mode b then (unescape mode s).map (b :: ·)
    else .error (.invalidHost [b])

def validEncoded (mode : Encoding) (s : GoString) : Bool :=
  s.all fun b => b ∈ lit "!$&'()*+,;=:@[]%" || !shouldEscape mode b

def validOptionalPort : GoString → Bool
  | [] => true
  | b :: s => b = ch ':' && s.all isDigit

/-- The texts before and from the first `%25`. -/
def splitZone : GoString → Option (GoString × GoString)
  | [] => none
  | b :: s =>
    if hasPrefix (b :: s) (lit "%25") then some ([], b :: s)
    else (splitZone s).map fun p => (b :: p.1, p.2)

def parseHost (host : GoString) : Except URLError GoString :=
  if hasPrefix host (lit "[") then
    match cutLast (ch ']') host with
    | none => .error .missingBracket
    | some (before, colonPort) =>
      if validOptionalPort colonPort then
        match splitZone before with
        | none => unescape .host host
        | some (literal, zone) => do
          let host1 ← unescape .host literal
          let host2 ← unescape .zone zone
          let host3 ← unescape .host (ch ']' :: colonPort)
          return host1 ++ host2 ++ host3
      else .error (.port colonPort)
  else
    match cutLast (ch ':') host with
    | none => unescape .host host
    | some (_, port) =>
      if validOptionalPort (ch ':' :: port) then unescape .host host
      else .error (.port (ch ':' :: port))

def validUserinfo (s : GoString) : Bool :=
  s.all fun b => isAlpha b || isDigit b || b ∈ lit "-._:~!$&'()*+,;=%@"

def parseUserinfo (userinfo : GoString) : Except URLError Userinfo :=
  if validUserinfo userinfo then
    match cut (ch ':') userinfo with
    | none => do
      let username ← unescape .userPassword userinfo
      return ⟨username, none⟩
    | some (name, pass) => do
      let username ← unescape .userPassword name
      let password ← unescape .userPassword pass
      return ⟨username, some password⟩
  else .error .userinfo

def parseAuthority (authority : GoString) : Except URLError (Option Userinfo × GoString) :=
  match cutLast (ch '@') authority with
  | none => do
    let host ← parseHost authority
    return (none, host)
  | some (userinfo, hostport) => do
    let host ← parseHost hostport
    let user ← parseUserinfo userinfo
    return (some user, host)

def URL.setPath (u : URL) (p : GoString) : Except URLError URL := do
  let path ← unescape .path p
  return { u with path := path, rawPath := if p = escape .path path then [] else p }

def URL.setFragment (u : URL) (f : GoString) : Except URLError URL := do
  let fragment ← unescape .fragment f
  return { u with fragment := fragment
                  rawFragment := if f = escape .fragment fragment then [] else f }

/-- The loop of `getScheme`, with the text and what has been read of it. -/
def getSchemeLoop (raw : GoString) : GoString → GoString →
    Except URLError (GoString × GoString)
  | [], _ => .ok ([], raw)
  | c :: s, read =>
    if isAlpha c then getSchemeLoop raw s (read ++ [c])
    else if isDigit c || c ∈ lit "+-." then
      if read = [] then .ok ([], raw) else getSchemeLoop raw s (read ++ [c])
    else if c = ch ':' then
      if read = [] then .error .missingScheme else .ok (read, s)
    else .ok ([], raw)

def getScheme (raw : GoString) : Except URLError (GoString × GoString) := getSchemeLoop raw raw []

/-- The text before the query, whether the query is a lone question mark, and the query. -/
def splitQuery (rest : GoString) : GoString × Bool × GoString :=
  if hasSuffix rest (lit "?") ∧ rest.count (ch '?') = 1 then (rest.dropLast, true, [])
  else
    match cut (ch '?') rest with
    | some (before, query) => (before, false, query)
    | none => (rest, false, [])

/-- The authority at the front of a text and the path after it. -/
def splitAuthority (s : GoString) : GoString × GoString :=
  match cut (ch '/') s with
  | some (authority, path) => (authority, ch '/' :: path)
  | none => (s, [])

def parseHierarchy (u : URL) (rest : GoString) : Except URLError URL :=
  if (u.scheme ≠ [] ∨ hasPrefix rest (lit "///") = false) ∧ hasPrefix rest (lit "//") = true then do
    let (user, host) ← parseAuthority (splitAuthority (rest.drop 2)).1
    { u with user := user, host := host }.setPath (splitAuthority (rest.drop 2)).2
  else if u.scheme ≠ [] ∧ hasPrefix rest (lit "/") = true then
    { u with omitHost := true }.setPath rest
  else u.setPath rest

def firstSegment (rest : GoString) : GoString :=
  match cut (ch '/') rest with
  | some (segment, _) => segment
  | none => rest

def isControl (b : UInt8) : Bool := b < 32 || b = 127

def parseURL (raw : GoString) : Except URLError URL :=
  if raw.any isControl then .error .control
  else if raw = lit "*" then .ok { path := lit "*" }
  else do
    let (scheme, rest) ← getScheme raw
    let (rest, forceQuery, rawQuery) := splitQuery rest
    let u : URL :=
      { scheme := scheme.map asciiLower, forceQuery := forceQuery, rawQuery := rawQuery }
    if hasPrefix rest (lit "/") then parseHierarchy u rest
    else if u.scheme ≠ [] then return { u with rootless := rest }
    else if ch ':' ∈ firstSegment rest then throw .segmentColon
    else parseHierarchy u rest

/-- The model of `url.Parse`. -/
def urlParse (raw : GoString) : Except ParseError URL :=
  let (before, frag) := (cut (ch '#') raw).getD (raw, [])
  match parseURL before with
  | .error e => .error ⟨before, e⟩
  | .ok u =>
    if frag = [] then .ok u
    else
      match u.setFragment frag with
      | .error e => .error ⟨raw, e⟩
      | .ok u => .ok u

def URL.escapedPath (u : URL) : GoString :=
  if u.rawPath ≠ [] ∧ validEncoded .path u.rawPath = true ∧
      unescape .path u.rawPath = .ok u.path then u.rawPath
  else if u.path = lit "*" then lit "*"
  else escape .path u.path

def URL.escapedFragment (u : URL) : GoString :=
  if u.rawFragment ≠ [] ∧ validEncoded .fragment u.rawFragment = true ∧
      unescape .fragment u.rawFragment = .ok u.fragment then u.rawFragment
  else escape .fragment u.fragment

def Userinfo.string (user : Userinfo) : GoString :=
  escape .userPassword user.username ++
    match user.password with
    | none => []
    | some password => ch ':' :: escape .userPassword password

/-- The authority as `URL.String` writes it after the two slashes. -/
def URL.authority (u : URL) : GoString :=
  (match u.user with
    | none => []
    | some user => user.string ++ [ch '@']) ++ escape .host u.host

/-- The query and the fragment as `URL.String` writes them. -/
def URL.queryFragment (u : URL) : GoString :=
  (if u.forceQuery ∨ u.rawQuery ≠ [] then ch '?' :: u.rawQuery else []) ++
    (if u.fragment ≠ [] then ch '#' :: u.escapedFragment else [])

/-- The scheme and the authority with their separators. -/
def URL.front (u : URL) : GoString :=
  (if u.scheme ≠ [] then u.scheme ++ [ch ':'] else []) ++
    if u.scheme = [] ∧ u.host = [] ∧ u.user = none then []
    else if u.omitHost ∧ u.host = [] ∧ u.user = none then []
    else (if u.host ≠ [] ∨ u.path ≠ [] ∨ u.user ≠ none then lit "//" else []) ++ u.authority

/-- The model of `URL.String`. -/
def URL.string (u : URL) : GoString :=
  if u.rootless ≠ [] then
    (if u.scheme ≠ [] then u.scheme ++ [ch ':'] else []) ++ u.rootless ++ u.queryFragment
  else
    let path := u.escapedPath
    let path := if path ≠ [] ∧ hasPrefix path (lit "/") = false ∧ u.host ≠ [] then ch '/' :: path
      else path
    let path := if u.front = [] ∧ ch ':' ∈ firstSegment path then lit "./" ++ path else path
    u.front ++ path ++ u.queryFragment

def stripBrackets (host : GoString) : GoString :=
  if hasPrefix host (lit "[") && hasSuffix host (lit "]") then host.tail.dropLast else host

/-- The host and port of `URL.Host`. -/
def urlSplitHostPort (hostPort : GoString) : GoString × GoString :=
  match cutLast (ch ':') hostPort with
  | some (host, port) =>
    if validOptionalPort (ch ':' :: port) then (stripBrackets host, port)
    else (stripBrackets hostPort, [])
  | none => (stripBrackets hostPort, [])

def URL.hostname (u : URL) : GoString := (urlSplitHostPort u.host).1

section
variable (U : Unicode)

def URLError.text : URLError → GoString
  | control => lit "net/url: invalid control character in URL"
  | missingScheme => lit "missing protocol scheme"
  | segmentColon => lit "first path segment in URL cannot contain colon"
  | missingBracket => lit "missing ']' in host"
  | port colonPort => lit "invalid port " ++ quote U colonPort ++ lit " after host"
  | userinfo => lit "net/url: invalid userinfo"
  | escape text => lit "invalid URL escape " ++ quote U text
  | invalidHost text => lit "invalid character " ++ quote U text ++ lit " in host name"

def ParseError.text (e : ParseError) : GoString :=
  lit "parse " ++ quote U e.url ++ lit ": " ++ e.err.text U

end

end HyruleProxy
