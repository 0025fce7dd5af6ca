import HyruleProxy.GoMap
import HyruleProxy.URLPolicy

namespace HyruleProxy
set_option autoImplicit true

/-- The limits of a configuration that `config.Load` accepts. -/
structure Config where
  maxRequestBodyBytes : Int
  maxResponseBodyBytes : Int
  maxRedirects : Int
  request_pos : 0 < maxRequestBodyBytes
  response_pos : 0 < maxResponseBodyBytes

/-- The limits that `config.Load` falls back to. -/
def defaultConfig : Config where
  maxRequestBodyBytes := 65536
  maxResponseBodyBytes := 65536
  maxRedirects := 3
  request_pos := by decide
  response_pos := by decide

structure NetworkRequest where
  url : GoString
  method : GoString
  body : Option GoString
  proxyMode : GoString

structure NetworkResponse where
  statusCode : Int
  headers : GoMap GoString GoString
  body : GoString
  proxyMode : GoString
  error : Option GoString

/-- A body as a reader sees it: the bytes, then the end or an error. -/
structure Body where
  data : GoString
  err : Option GoString

structure Response where
  statusCode : Int
  header : List (GoString × List GoString)
  body : Body

/-- What one sent request leads to: an error of the transport, a final response, or a redirect
with its `Location` and the URL it resolves to. -/
inductive UpstreamReply where
  | failure (e : GoError)
  | response (r : Response)
  | redirect (location : GoString) (target : Except GoString URL)

/-- The environment of one request: the answers of the resolver, call by call, and the replies of
the upstream servers, hop by hop. -/
structure Net where
  lookup : Nat → LookupIP
  replies : List UpstreamReply

/-- An `http.Client` as far as `CheckRedirect` configures it. -/
structure HTTPClient where
  mode : GoString
  maxRedirects : Int

structure Client where
  cfg : Config
  directHTTP : HTTPClient
  torHTTP : HTTPClient
  i2pHTTP : HTTPClient
  yggHTTP : HTTPClient

def newClient (cfg : Config) : Client where
  cfg := cfg
  directHTTP := ⟨proxyModeDirect, cfg.maxRedirects⟩
  torHTTP := ⟨proxyModeTor, cfg.maxRedirects⟩
  i2pHTTP := ⟨proxyModeI2P, cfg.maxRedirects⟩
  yggHTTP := ⟨proxyModeYggdrasil, cfg.maxRedirects⟩

def Client.clientForMode (c : Client) (mode : GoString) : Except GoError HTTPClient :=
  if mode = proxyModeDirect then .ok c.directHTTP
  else if mode = proxyModeTor then .ok c.torHTTP
  else if mode = proxyModeI2P then .ok c.i2pHTTP
  else if mode = proxyModeYggdrasil then .ok c.yggHTTP
  else .error (.plain (lit "unsupported proxy mode: " ++ mode))

def hasPort (s : GoString) : Bool :=
  match cutLast (ch ':') s with
  | some (_, post) => ch ']' ∉ post
  | none => false

def removeEmptyPort (host : GoString) : GoString :=
  if hasPort host then trimSuffix host (lit ":") else host

/-- The URL of the request that `http.NewRequestWithContext` builds. -/
def newRequest (raw : GoString) : Except ParseError URL :=
  (urlParse raw).map fun u => { u with host := removeEmptyPort u.host }

def responseHeaderDenylist : List GoString :=
  [lit "authorization", lit "cookie", lit "proxy-authorization", lit "set-cookie", lit "x-api-key",
    lit "x-payment", lit "payment-signature"]

def joinValues : List GoString → GoString
  | [] => []
  | [v] => v
  | v :: w :: vs => v ++ lit ", " ++ joinValues (w :: vs)

/-- `io.ReadAll` over an `io.LimitReader`. -/
def readLimited (limit : Int) (b : Body) : Except GoString GoString :=
  if limit ≤ b.data.length then .ok (b.data.take limit.toNat)
  else
    match b.err with
    | some e => .error e
    | none => .ok b.data

def methodOp (method : GoString) : GoString := method.take 1 ++ (method.drop 1).map asciiLower

section
variable (U : Unicode)

def allowResponseHeader (key : GoString) : Bool :=
  toLower U (trimSpace key) ∉ responseHeaderDenylist

def setHeader (headers : GoMap GoString GoString) (h : GoString × List GoString) :
    GoMap GoString GoString :=
  if allowResponseHeader U h.1 = true ∧ h.2 ≠ [] then headers.insert h.1 (joinValues h.2)
  else headers

def Client.buildResponse (c : Client) (resp : Response) (mode : GoString) :
    Except (Int × GoError) NetworkResponse :=
  match readLimited (Int.bmod (c.cfg.maxResponseBodyBytes + 1) (2 ^ 64)) resp.body with
  | .error e => .error (502, .plain (lit "response read error: " ++ e))
  | .ok respBytes =>
    let headers := resp.header.foldl (setHeader U) ∅
    if (respBytes.length : Int) > c.cfg.maxResponseBodyBytes then
      .ok { statusCode := resp.statusCode
            headers := headers.insert (lit "x-hyrule-truncated") (lit "true")
            body := respBytes.take c.cfg.maxResponseBodyBytes.toNat
            proxyMode := mode
            error := none }
    else
      .ok { statusCode := resp.statusCode
            headers := headers
            body := respBytes
            proxyMode := mode
            error := none }

def validateHostQ (host mode : GoString) : Lookups (Except GoError Unit) :=
  if mode = proxyModeTor ∧ hasSuffix (toLower U host) (lit ".onion") = true then .done (.ok ())
  else if mode = proxyModeI2P ∧ hasSuffix (toLower U host) (lit ".i2p") = true then .done (.ok ())
  else validateResolvedHostQ U host mode

def validateHost (host mode : GoString) (resolver : Resolver) : Except GoError Unit :=
  (validateHostQ U host mode).run resolver

/-- The error of `http.Client.Do` with the URL it names. -/
def clientError (method url : GoString) (e : GoError) : GoError :=
  { e with text := methodOp method ++ lit " " ++ quote U url ++ lit ": " ++ e.text }

/-- The loop of `http.Client.Do`: the URLs that requests are sent to, and the last response.
Where the replies end, the connection breaks. -/
def follow (method : GoString) (check : URL → List URL → Except GoError Unit) :
    List UpstreamReply → List URL → URL → List URL × Except GoError Response
  | [], via, u => (via ++ [u], .error (clientError U method u.string (.plain (lit "EOF"))))
  | .failure e :: _, via, u => (via ++ [u], .error (clientError U method u.string e))
  | .response r :: _, via, u => (via ++ [u], .ok r)
  | .redirect location target :: replies, via, u =>
    match target with
    | .error e => (via ++ [u], .error (clientError U method u.string
        (.plain (lit "failed to parse Location header " ++ quote U location ++ lit ": " ++ e))))
    | .ok v =>
      match check v (via ++ [u]) with
      | .error e => (via ++ [u], .error (clientError U method location e))
      | .ok () => follow method check replies (via ++ [u]) v

/-- A request that has passed the gates of `Client.Do`. -/
structure Prepared where
  method : GoString
  url : URL
  client : HTTPClient

/-- `Client.Do` up to the call of `http.Client.Do`, or the status and the error it returns. -/
def Client.prepare (c : Client) (lookup : LookupIP) (req : NetworkRequest) (mode : GoString) :
    Except (Int × GoError) Prepared :=
  match normalizeMethod U req.method with
  | .error e => .error (400, e)
  | .ok method =>
    match parseAndValidateURL U req.url mode with
    | .error e => .error (if e.policyDenied then 403 else 400, e)
    | .ok parsed =>
      match validateHost U parsed.hostname mode (defaultResolver lookup) with
      | .error e => .error (403, e)
      | .ok () =>
        if c.cfg.maxRequestBodyBytes < ((req.body.getD []).length : Int) then
          .error (400, .plain (lit "request body exceeds limit"))
        else
          match newRequest parsed.string with
          | .error e => .error (400, .plain (e.text U))
          | .ok u =>
            match c.clientForMode mode with
            | .error e => .error (400, e)
            | .ok client => .ok ⟨method, u, client⟩

/-- The `CheckRedirect` of a client, which asks the resolver anew at every hop. -/
def HTTPClient.checkRedirect (client : HTTPClient) (net : Net) (req : URL) (via : List URL) :
    Except GoError Unit :=
  redirectPolicy U client.mode client.maxRedirects (defaultResolver (net.lookup via.length)) req via

def requestMode (req : NetworkRequest) : GoString :=
  if req.proxyMode = [] then proxyModeDirect else req.proxyMode

/-- A run of `Client.Do`: the URLs that requests are sent to, and its result. -/
def Client.attempt (c : Client) (net : Net) (req : NetworkRequest) :
    List URL × Except (Int × GoError) NetworkResponse :=
  match c.prepare U (net.lookup 0) req (requestMode req) with
  | .error e => ([], .error e)
  | .ok p =>
    let (sent, result) := follow U p.method (p.client.checkRedirect U net) net.replies [] p.url
    match result with
    | .error e => (sent, .error (502, { e with text := lit "network error: " ++ e.text }))
    | .ok resp => (sent, c.buildResponse U resp (requestMode req))

def errorResponse (status : Int) (mode : GoString) (e : GoError) : NetworkResponse where
  statusCode := status
  headers := ∅
  body := []
  proxyMode := mode
  error := some e.text

/-- The model of `Client.Do`. -/
def Client.doRequest (c : Client) (net : Net) (req : NetworkRequest) : NetworkResponse :=
  match (c.attempt U net req).2 with
  | .error (status, e) => errorResponse status (requestMode req) e
  | .ok resp => resp

end

end HyruleProxy
