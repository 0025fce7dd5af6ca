import HyruleProxy.Client

namespace HyruleProxy
set_option autoImplicit true

/-- The metric families that a request touches. -/
inductive Series where
  | requestsTotal | requestDuration | requestBytesTotal | responseBytesTotal | policyDenialsTotal
  deriving DecidableEq

/-- The value of each family under each tuple of labels; a histogram counts its observations. -/
structure Metrics where
  vec : Series → GoMap (List GoString) Nat

def Metrics.new : Metrics := ⟨fun _ => ∅⟩

/-- Code that can panic and keeps the metrics written before the panic. -/
abbrev Metered := OptionT (StateM Metrics)

/-- `WithLabelValues` and the update of the metric it returns; a label value that is not UTF-8
panics. -/
def Metrics.add (series : Series) (labels : List GoString) (n : Nat) : Metered Unit := fun m =>
  if ∀ l ∈ labels, ValidUTF8 l then
    (some (), ⟨Function.update m.vec series
      ((m.vec series).insert labels (((m.vec series)[labels]?).getD 0 + n))⟩)
  else (none, m)

def statusClass (status : Int) : GoString := itoa (status.tdiv 100) ++ lit "xx"

def observeRequest (mode : GoString) (status : Int) (reqBytes respBytes : Nat) : Metered Unit := do
  Metrics.add .requestsTotal [mode, statusClass status] 1
  Metrics.add .requestDuration [mode] 1
  Metrics.add .requestBytesTotal [mode] reqBytes
  Metrics.add .responseBytesTotal [mode] respBytes

def observePolicyDenial (mode reason : GoString) : Metered Unit :=
  Metrics.add .policyDenialsTotal [mode, reason] 1

/-- A request as `decodeLimitedJSON` leaves it: the decoder replaces invalid bytes. -/
structure DecodedRequest extends NetworkRequest where
  url_valid : ValidUTF8 url
  method_valid : ValidUTF8 method
  body_valid : ∀ b ∈ body, ValidUTF8 b
  mode_valid : ValidUTF8 proxyMode

/-- What the handler writes: the decoder's error with status 400, or the envelope with 200. -/
inductive Written where
  | badRequest (error : GoString)
  | envelope (resp : NetworkResponse)

/-- The part of `handleRequest` that counts an error with status 400 or 403 under its text. -/
def observeDenial (mode : GoString) (resp : NetworkResponse) : Metered Unit :=
  match resp.error with
  | some reason =>
    if resp.statusCode = 400 ∨ resp.statusCode = 403 then observePolicyDenial mode reason
    else pure ()
  | none => pure ()

section
variable (U : Unicode)

def handleRequest (c : Client) (net : Net) : Except GoString DecodedRequest → Metered Written
  | .error e => pure (.badRequest e)
  | .ok decoded => do
    let req := { decoded.toNetworkRequest with proxyMode := requestMode decoded.toNetworkRequest }
    let resp := c.doRequest U net req
    observeDenial req.proxyMode resp
    observeRequest req.proxyMode resp.statusCode (req.body.getD []).length resp.body.length
    pure (.envelope resp)

/-- The names that `validateHost` accepts without a look at addresses. -/
def SkipsResolution (host mode : GoString) : Prop :=
  mode = proxyModeTor ∧ hasSuffix (toLower U host) (lit ".onion") = true ∨
    mode = proxyModeI2P ∧ hasSuffix (toLower U host) (lit ".i2p") = true

/-- The names that `ValidateResolvedHost` looks up. -/
structure LooksUp (host : GoString) : Prop where
  literal : parseAddr host = none
  localhost : isLocalhost U host = false
  suffix : (hasSuffix (toLower U host) (lit ".onion") ||
    hasSuffix (toLower U host) (lit ".i2p")) = false

/-- The refusal of the host repeats bytes that are not UTF-8: the zone of a refused literal, or the
resolver's error. -/
inductive GarblesHost (lookup : LookupIP) (mode host : GoString) : Prop where
  | literal (ha : parseAddr host = some a) (hd : ipAllowedForMode a mode = false)
      (hz : ¬ValidUTF8 a.zone)
  | lookup (hq : LooksUp U host) (he : lookup host = .error e) (hv : ¬ValidUTF8 e)

/-- The errors of `ValidateResolvedHost` on a host without brackets. -/
inductive HostRefusal (lookup : LookupIP) (mode host : GoString) : GoError → Prop where
  | literal (ha : parseAddr host = some a) (hd : ipAllowedForMode a mode = false) :
      HostRefusal lookup mode host (errPolicyDenied (lit "destination IP " ++ a.string ++
        lit " is disallowed for " ++ mode))
  | localhost (ha : parseAddr host = none) (hl : isLocalhost U host = true) :
      HostRefusal lookup mode host (errPolicyDenied (lit "localhost is disallowed"))
  | lookup (hq : LooksUp U host) (he : lookup host = .error e) :
      HostRefusal lookup mode host (.plain e)
  | empty (hq : LooksUp U host) (hr : defaultResolver lookup host = .ok []) :
      HostRefusal lookup mode host (.plain (lit "host resolved to no addresses"))
  | address (hq : LooksUp U host) (hr : defaultResolver lookup host = .ok addrs)
      (hf : addrs.find? (fun addr => !ipAllowedForMode addr mode) = some a) :
      HostRefusal lookup mode host (errPolicyDenied (lit "host resolves to disallowed IP " ++
        a.string))

/-- The errors of `Client.Do` before a request is sent, with their status. -/
inductive Client.Refuses (c : Client) (lookup : LookupIP) (req : NetworkRequest)
    (mode : GoString) : Int → GoError → Prop where
  | method (h : normalizeMethod U req.method = .error e) : Refuses c lookup req mode 400 e
  | url (hn : normalizeMethod U req.method = .ok method)
      (h : parseAndValidateURL U req.url mode = .error e) :
      Refuses c lookup req mode (if e.policyDenied then 403 else 400) e
  | host (hn : normalizeMethod U req.method = .ok method)
      (hp : parseAndValidateURL U req.url mode = .ok parsed)
      (h : validateHost U parsed.hostname mode (defaultResolver lookup) = .error e) :
      Refuses c lookup req mode 403 e
  | body (h : c.cfg.maxRequestBodyBytes < ((req.body.getD []).length : Int)) :
      Refuses c lookup req mode 400 (.plain (lit "request body exceeds limit"))
  | request (hp : parseAndValidateURL U req.url mode = .ok parsed)
      (h : newRequest parsed.string = .error e) : Refuses c lookup req mode 400 (.plain (e.text U))
  | mode (h : c.clientForMode mode = .error e) : Refuses c lookup req mode 400 e

/-- The request comes as far as the check of its host, whose refusal is not UTF-8. -/
def Garbles (lookup : LookupIP) (req : NetworkRequest) : Prop :=
  ∃ method parsed, normalizeMethod U req.method = .ok method ∧
    parseAndValidateURL U req.url (requestMode req) = .ok parsed ∧
    ¬SkipsResolution U parsed.hostname (requestMode req) ∧
    GarblesHost U lookup (requestMode req) (trim parsed.hostname (lit "[]"))

end

theorem validUTF8_between (hp : ValidUTF8 pre) (hq : ValidUTF8 post) :
    ValidUTF8 (pre ++ s ++ post) ↔ ValidUTF8 s := by
  constructor
  · intro h
    exact hp.of_append_left (hq.of_append_right h)
  · intro h
    exact (hp.append h).append hq

theorem Addr.isASCII_body (a : Addr) : IsASCII a.body := by
  intro b hb
  rcases a.isAddrByte_body hb with rfl | rfl | ⟨d, hd, rfl⟩
  · decide
  · decide
  · exact isASCII_digitChar hd

theorem Addr.validUTF8_string (a : Addr) : ValidUTF8 a.string ↔ ValidUTF8 a.zone := by
  by_cases h : a = .zero
  · rw [h]
    exact iff_of_true (validUTF8_lit _) IsASCII.nil.validUTF8
  · rw [Addr.string_eq h, zoneText]
    split
    · rename_i hz
      rw [List.append_nil, hz]
      exact iff_of_true a.isASCII_body.validUTF8 IsASCII.nil.validUTF8
    · have hp : ValidUTF8 (a.body ++ [ch '%']) :=
        (a.isASCII_body.append (.cons (by decide) .nil)).validUTF8
      have hi := validUTF8_between hp (s := a.zone) IsASCII.nil.validUTF8
      simpa using hi

theorem validUTF8_urlError (U : Unicode) (e : URLError) : ValidUTF8 (e.text U) := by
  cases e with
  | control => exact validUTF8_lit _
  | missingScheme => exact validUTF8_lit _
  | segmentColon => exact validUTF8_lit _
  | missingBracket => exact validUTF8_lit _
  | port colonPort =>
    exact ((validUTF8_lit _).append (validUTF8_quote U colonPort)).append (validUTF8_lit _)
  | userinfo => exact validUTF8_lit _
  | escape text => exact (validUTF8_lit _).append (validUTF8_quote U text)
  | invalidHost text =>
    exact ((validUTF8_lit _).append (validUTF8_quote U text)).append (validUTF8_lit _)

theorem validUTF8_parseError (U : Unicode) (e : ParseError) : ValidUTF8 (e.text U) :=
  (((validUTF8_lit _).append (validUTF8_quote U e.url)).append (validUTF8_lit _)).append
    (validUTF8_urlError U e.err)

theorem validUTF8_errPolicyDenied (h : ValidUTF8 s) : ValidUTF8 (errPolicyDenied s).text :=
  (validUTF8_lit _).append h

/-- The method that `NormalizeMethod` checks. -/
def upperMethod (U : Unicode) (method : GoString) : GoString :=
  if toUpper U (trimSpace method) = [] then lit "GET" else toUpper U (trimSpace method)

theorem normalizeMethod_eq (U : Unicode) (method : GoString) : normalizeMethod U method =
    if upperMethod U method ∈ allowedMethods then .ok (upperMethod U method)
    else .error (.plain (lit "unsupported HTTP method: " ++ upperMethod U method)) :=
  rfl

theorem normalizeMethod_error (h : normalizeMethod U method = .error e) :
    upperMethod U method ∉ allowedMethods ∧
      e = .plain (lit "unsupported HTTP method: " ++ upperMethod U method) := by
  rw [normalizeMethod_eq] at h
  split at h
  · cases h
  · rename_i hm
    cases h
    exact ⟨hm, rfl⟩

theorem validUTF8_upperMethod (U : Unicode) (method : GoString) :
    ValidUTF8 (upperMethod U method) := by
  rw [upperMethod]
  split
  · exact validUTF8_lit _
  · exact validUTF8_toUpper U _

theorem modeDenial_error (hm : ValidUTF8 mode) (h : modeDenial mode host = some e) :
    ValidUTF8 e.text := by
  have hd : ∀ s, ValidUTF8 (errPolicyDenied (lit s)).text := by
    intro s
    exact validUTF8_errPolicyDenied (validUTF8_lit s)
  rw [modeDenial] at h
  split at h
  · split at h
    · cases h
      exact hd _
    · cases h
  · split at h
    · split at h
      · cases h
        exact hd _
      · cases h
    · split at h
      · split at h
        · cases h
        · cases h
          exact hd _
      · split at h
        · split at h
          · cases h
            exact hd _
          · cases h
        · cases h
          exact (validUTF8_lit _).append hm

theorem parseAndValidateURL_error (hm : ValidUTF8 mode)
    (h : parseAndValidateURL U raw mode = .error e) : ValidUTF8 e.text := by
  rw [parseAndValidateURL] at h
  split at h
  · cases h
    exact validUTF8_lit _
  · split at h
    · cases h
      exact (validUTF8_lit _).append (validUTF8_parseError U _)
    · split at h
      · cases h
        exact validUTF8_lit _
      · split at h
        · cases h
          exact validUTF8_lit _
        · split at h
          · cases h
            exact validUTF8_lit _
          · split at h
            · rename_i hd
              cases h
              exact modeDenial_error hm hd
            · cases h

theorem Addr.unmap_zone {a : Addr} (h : a.zone = []) : a.unmap.zone = [] := by
  cases a with
  | zero => rfl
  | ip4 o => rfl
  | ip6 g z =>
    rw [Addr.unmap]
    split
    · rfl
    · exact h

theorem addrFromSlice_zone (h : addrFromSlice ip = some a) : a.zone = [] := by
  rw [addrFromSlice] at h
  split at h
  · rename_i hl
    rw [mkIP4, dif_pos hl] at h
    cases h
    rfl
  · split at h
    · obtain ⟨hl, h⟩ := Option.dite_none_right_eq_some.1 h
      cases h
      rfl
    · cases h

theorem defaultResolver_zone (h : defaultResolver lookup host = .ok addrs) (ha : a ∈ addrs) :
    a.zone = [] := by
  obtain ⟨ips, _, rfl⟩ := map_eq_ok h
  obtain ⟨ip, _, hip⟩ := List.mem_filterMap.1 ha
  obtain ⟨b, hb, rfl⟩ := Option.map_eq_some_iff.1 hip
  exact Addr.unmap_zone (addrFromSlice_zone hb)

theorem refusal_valid (a : Addr) (hm : ValidUTF8 mode) :
    ValidUTF8 (errPolicyDenied (lit "destination IP " ++ a.string ++ lit " is disallowed for " ++
      mode)).text ↔ ValidUTF8 a.zone := by
  have hp : ValidUTF8 (lit "policy denied: " ++ lit "destination IP ") :=
    (validUTF8_lit _).append (validUTF8_lit _)
  have hi := validUTF8_between hp (s := a.string) ((validUTF8_lit " is disallowed for ").append hm)
  rw [← a.validUTF8_string, ← hi, errPolicyDenied]
  simp only [List.append_assoc]

theorem defaultResolver_error (h : defaultResolver lookup host = .error e) :
    lookup host = .error e := by
  rw [defaultResolver] at h
  cases hx : lookup host with
  | error e' =>
    rw [hx] at h
    cases h
    rfl
  | ok ips =>
    rw [hx] at h
    cases h

theorem validateResolvedHost_error
    (h : validateResolvedHost U host mode (defaultResolver lookup) = .error e) :
    HostRefusal U lookup mode (trim host (lit "[]")) e := by
  rw [validateResolvedHost, validateResolvedHostQ] at h
  split at h
  · rename_i a ha
    split at h
    · cases h
    · rename_i hd
      cases h
      exact .literal ha (by simpa using hd)
  · rename_i ha
    split at h
    · rename_i hl
      cases h
      exact .localhost ha hl
    · rename_i hl
      split at h
      · cases h
      · rename_i hs
        have hq : LooksUp U (trim host (lit "[]")) := ⟨ha, by simpa using hl, by simpa using hs⟩
        simp only [Asking.run_ask] at h
        split at h
        · rename_i he
          cases h
          exact .lookup hq (defaultResolver_error he)
        · rename_i addrs hr
          split at h
          · rename_i hn
            cases h
            rw [hn] at hr
            exact .empty hq hr
          · split at h
            · rename_i hf
              cases h
              exact .address hq hr hf
            · cases h

theorem LooksUp.resolver_error (h : LooksUp U (trim host (lit "[]")))
    (hr : resolver (trim host (lit "[]")) = .error e) :
    validateResolvedHost U host mode resolver = .error (.plain e) := by
  simp only [validateResolvedHost, validateResolvedHostQ, h.literal, h.localhost, h.suffix,
    Bool.false_eq_true, if_false, Asking.run_ask, hr, Asking.run_done]

theorem LooksUp.resolver_empty (h : LooksUp U (trim host (lit "[]")))
    (hr : resolver (trim host (lit "[]")) = .ok []) :
    validateResolvedHost U host mode resolver =
      .error (.plain (lit "host resolved to no addresses")) := by
  simp only [validateResolvedHost, validateResolvedHostQ, h.literal, h.localhost, h.suffix,
    Bool.false_eq_true, if_false, Asking.run_ask, hr, if_true, Asking.run_done]

theorem LooksUp.lookup_error (h : LooksUp U (trim host (lit "[]")))
    (he : lookup (trim host (lit "[]")) = .error e) :
    validateResolvedHost U host mode (defaultResolver lookup) = .error (.plain e) := by
  apply h.resolver_error
  rw [defaultResolver, he]
  rfl

theorem validateResolvedHost_garbled (hm : ValidUTF8 mode) :
    (∃ e, validateResolvedHost U host mode (defaultResolver lookup) = .error e ∧
      ¬ValidUTF8 e.text) ↔ GarblesHost U lookup mode (trim host (lit "[]")) := by
  constructor
  · rintro ⟨e, h, hv⟩
    cases validateResolvedHost_error h with
    | @literal a ha hd =>
      rw [refusal_valid a hm] at hv
      exact .literal ha hd hv
    | localhost ha hl => exact absurd (validUTF8_errPolicyDenied (validUTF8_lit _)) hv
    | lookup hq he => exact .lookup hq he hv
    | empty hq hr => exact absurd (validUTF8_lit _) hv
    | @address addrs a hq hr hf =>
      have hz := defaultResolver_zone hr (List.mem_of_find?_eq_some hf)
      have hs := a.validUTF8_string
      rw [hz] at hs
      apply absurd _ hv
      apply validUTF8_errPolicyDenied
      exact (validUTF8_lit _).append (hs.2 IsASCII.nil.validUTF8)
  · intro h
    cases h with
    | @literal a ha hd hz =>
      refine ⟨_, ?_, mt (refusal_valid a hm).1 hz⟩
      simp only [validateResolvedHost, validateResolvedHostQ, ha, hd]
      rfl
    | @lookup e hq he hv => exact ⟨.plain e, hq.lookup_error he, hv⟩

theorem validateHost_eq (U : Unicode) (host mode : GoString) (resolver : Resolver) :
    validateHost U host mode resolver = .ok () ∧ SkipsResolution U host mode ∨
      validateHost U host mode resolver = validateResolvedHost U host mode resolver ∧
        ¬SkipsResolution U host mode := by
  rw [validateHost, validateHostQ, SkipsResolution]
  split
  · rename_i h
    exact .inl ⟨rfl, .inl h⟩
  · rename_i h
    split
    · rename_i h'
      exact .inl ⟨rfl, .inr h'⟩
    · rename_i h'
      exact .inr ⟨rfl, not_or.2 ⟨h, h'⟩⟩

theorem validateHost_garbled (hm : ValidUTF8 mode) :
    (∃ e, validateHost U host mode (defaultResolver lookup) = .error e ∧ ¬ValidUTF8 e.text) ↔
      ¬SkipsResolution U host mode ∧ GarblesHost U lookup mode (trim host (lit "[]")) := by
  rcases validateHost_eq U host mode (defaultResolver lookup) with ⟨he, hs⟩ | ⟨he, hs⟩
  · constructor
    · rintro ⟨e, h, _⟩
      rw [he] at h
      cases h
    · intro h
      exact absurd hs h.1
  · rw [he, validateResolvedHost_garbled hm]
    exact (and_iff_right hs).symm

/-- The resolver's errors repeat the name that was looked up, in a text of their own. -/
def NamesHost (lookup : LookupIP) : Prop :=
  ∀ host e, lookup host = .error e →
    ∃ pre post, ValidUTF8 pre ∧ ValidUTF8 post ∧ e = pre ++ host ++ post

theorem NamesHost.garblesHost_iff (hn : NamesHost lookup) (hq : LooksUp U host)
    (he : lookup host = .error e) : GarblesHost U lookup mode host ↔ ¬ValidUTF8 host := by
  obtain ⟨pre, post, hpre, hpost, rfl⟩ := hn host e he
  constructor
  · intro h
    cases h with
    | literal ha =>
      rw [hq.literal] at ha
      cases ha
    | lookup _ he' hv =>
      rw [he] at he'
      cases he'
      exact mt (validUTF8_between hpre hpost).2 hv
  · intro hv
    exact .lookup hq he (mt (validUTF8_between hpre hpost).1 hv)

theorem clientForMode_error {c : Client} (h : c.clientForMode mode = .error e) :
    e = .plain (lit "unsupported proxy mode: " ++ mode) := by
  rw [Client.clientForMode] at h
  split at h
  · cases h
  · split at h
    · cases h
    · split at h
      · cases h
      · split at h
        · cases h
        · cases h
          rfl

theorem prepare_error {c : Client} (h : c.prepare U lookup req mode = .error (status, e)) :
    c.Refuses U lookup req mode status e := by
  rw [Client.prepare] at h
  split at h
  · rename_i hn
    cases h
    exact .method hn
  · rename_i hn
    split at h
    · rename_i hp
      cases h
      exact .url hn hp
    · rename_i hp
      split at h
      · rename_i he
        cases h
        exact .host hn hp he
      · split at h
        · rename_i hb
          cases h
          exact .body hb
        · split at h
          · rename_i hr
            cases h
            exact .request hp hr
          · split at h
            · rename_i hc
              cases h
              exact .mode hc
            · cases h

theorem prepare_host {c : Client} (hn : normalizeMethod U req.method = .ok method)
    (hp : parseAndValidateURL U req.url mode = .ok parsed)
    (h : validateHost U parsed.hostname mode (defaultResolver lookup) = .error e) :
    c.prepare U lookup req mode = .error (403, e) := by
  simp only [Client.prepare, hn, hp, h]

/-- The errors before a request is sent, all with status 400 or 403, are valid UTF-8 but for those
of the host. -/
theorem prepare_garbled (c : Client) (hm : ValidUTF8 (requestMode req)) :
    (∃ status e, c.prepare U lookup req (requestMode req) = .error (status, e) ∧
      ¬ValidUTF8 e.text) ↔ Garbles U lookup req := by
  rw [Garbles]
  constructor
  · rintro ⟨status, e, h, hv⟩
    cases prepare_error h with
    | method hn =>
      rw [(normalizeMethod_error hn).2] at hv
      exact absurd ((validUTF8_lit _).append (validUTF8_upperMethod U _)) hv
    | url hn hp => exact absurd (parseAndValidateURL_error hm hp) hv
    | host hn hp he => exact ⟨_, _, hn, hp, (validateHost_garbled hm).1 ⟨_, he, hv⟩⟩
    | body hb => exact absurd (validUTF8_lit _) hv
    | request hp hr => exact absurd (validUTF8_parseError U _) hv
    | mode hc =>
      rw [clientForMode_error hc] at hv
      exact absurd ((validUTF8_lit _).append hm) hv
  · rintro ⟨method, parsed, hn, hp, hg⟩
    obtain ⟨e, he, hv⟩ := (validateHost_garbled hm).2 hg
    exact ⟨403, e, prepare_host hn hp he, hv⟩

theorem prepare_status {c : Client} (h : c.prepare U lookup req mode = .error (status, e)) :
    status = 400 ∨ status = 403 := by
  cases prepare_error h with
  | url hn hp =>
    split
    · exact .inr rfl
    · exact .inl rfl
  | host hn hp he => exact .inr rfl
  | _ => exact .inl rfl

theorem doRequest_of_prepare_error {c : Client}
    (h : c.prepare U (net.lookup 0) req (requestMode req) = .error (status, e)) :
    c.doRequest U net req = errorResponse status (requestMode req) e := by
  rw [Client.doRequest, Client.attempt, h]

theorem Client.buildResponse_cases (U : Unicode) (c : Client) (resp : Response) (mode : GoString) :
    (∃ e, c.buildResponse U resp mode = .error (502, .plain e)) ∨
      ∃ out, c.buildResponse U resp mode = .ok out ∧ out.error = none ∧
        out.statusCode = resp.statusCode := by
  rw [Client.buildResponse]
  split
  · exact .inl ⟨_, rfl⟩
  · simp only
    split
    · exact .inr ⟨_, rfl, rfl, rfl⟩
    · exact .inr ⟨_, rfl, rfl, rfl⟩

theorem doRequest_of_prepare_ok {c : Client}
    (h : c.prepare U (net.lookup 0) req (requestMode req) = .ok p)
    (he : (c.doRequest U net req).error = some reason) :
    (c.doRequest U net req).statusCode = 502 := by
  rw [Client.doRequest, Client.attempt, h] at he ⊢
  simp only at he ⊢
  cases hf : (follow U p.method (p.client.checkRedirect U net) net.replies [] p.url).2 with
  | error e => rfl
  | ok resp =>
    simp only [hf] at he ⊢
    rcases c.buildResponse_cases U resp (requestMode req) with ⟨e, hr⟩ | ⟨out, hr, ho, _⟩
    · simp only [hr]
      rfl
    · simp only [hr, ho] at he
      cases he

theorem requestMode_filled (req : NetworkRequest) :
    requestMode { req with proxyMode := requestMode req } = requestMode req := by
  unfold requestMode
  split
  · exact ite_self _
  · rfl

theorem doRequest_filled (U : Unicode) (c : Client) (net : Net) (req : NetworkRequest) :
    c.doRequest U net { req with proxyMode := requestMode req } = c.doRequest U net req := by
  -- the gates read the mode that they are given, not the field
  have hp : c.prepare U (net.lookup 0) { req with proxyMode := requestMode req } (requestMode req) =
      c.prepare U (net.lookup 0) req (requestMode req) := by
    simp only [Client.prepare]
  rw [Client.doRequest, Client.doRequest, Client.attempt, Client.attempt, requestMode_filled, hp]

theorem Metered.bind_some {x : Metered α} {f : α → Metered β} (h : x m = (some a, m')) :
    (x >>= f) m = f a m' := by
  simp [bind, OptionT.bind, OptionT.mk, StateT.bind, h]

theorem Metered.bind_none {x : Metered α} {f : α → Metered β} (h : x m = (none, m')) :
    (x >>= f) m = (none, m') := by
  simp [bind, OptionT.bind, OptionT.mk, StateT.bind, h]
  rfl

theorem Metrics.add_of_valid (series : Series) (n : Nat) (h : ∀ l ∈ labels, ValidUTF8 l) :
    ∃ m', Metrics.add series labels n m = (some (), m') := by
  rw [Metrics.add, if_pos h]
  exact ⟨_, rfl⟩

theorem validUTF8_statusClass (status : Int) : ValidUTF8 (statusClass status) :=
  (validUTF8_lit _).append (validUTF8_lit _)

theorem observeRequest_of_valid (hm : ValidUTF8 mode) :
    ∃ m', observeRequest mode status reqBytes respBytes m = (some (), m') := by
  have hmode : ∀ l ∈ [mode], ValidUTF8 l := List.forall_mem_singleton.2 hm
  have hpair : ∀ l ∈ [mode, statusClass status], ValidUTF8 l :=
    List.forall_mem_cons.2 ⟨hm, List.forall_mem_singleton.2 (validUTF8_statusClass status)⟩
  obtain ⟨m₁, h₁⟩ := Metrics.add_of_valid (m := m) .requestsTotal 1 hpair
  obtain ⟨m₂, h₂⟩ := Metrics.add_of_valid (m := m₁) .requestDuration 1 hmode
  obtain ⟨m₃, h₃⟩ := Metrics.add_of_valid (m := m₂) .requestBytesTotal reqBytes hmode
  rw [observeRequest, Metered.bind_some h₁, Metered.bind_some h₂, Metered.bind_some h₃]
  exact Metrics.add_of_valid _ _ hmode

theorem DecodedRequest.validUTF8_mode (r : DecodedRequest) :
    ValidUTF8 (requestMode r.toNetworkRequest) := by
  rw [requestMode]
  split
  · exact validUTF8_lit _
  · exact r.mode_valid

/-- The text that the handler would count a response under. -/
def NetworkResponse.Denies (resp : NetworkResponse) (reason : GoString) : Prop :=
  resp.error = some reason ∧ (resp.statusCode = 400 ∨ resp.statusCode = 403)

theorem observeDenial_of_valid (hm : ValidUTF8 mode)
    (h : ∀ reason, NetworkResponse.Denies resp reason → ValidUTF8 reason) :
    ∃ m', observeDenial mode resp m = (some (), m') := by
  rw [observeDenial]
  cases he : resp.error with
  | none => exact ⟨m, rfl⟩
  | some reason =>
    simp only
    split
    · rename_i hs
      apply Metrics.add_of_valid
      exact List.forall_mem_cons.2 ⟨hm, List.forall_mem_singleton.2 (h reason ⟨he, hs⟩)⟩
    · exact ⟨m, rfl⟩

theorem observeDenial_of_invalid (h : NetworkResponse.Denies resp reason) (hv : ¬ValidUTF8 reason) :
    observeDenial mode resp m = (none, m) := by
  simp only [observeDenial, h.1]
  rw [if_pos h.2, observePolicyDenial, Metrics.add, if_neg]
  intro hl
  exact hv (hl reason (by simp))

/-- The envelope is written exactly when the reason of a denial is valid UTF-8. -/
theorem handleRequest_envelope (U : Unicode) (c : Client) (net : Net) (r : DecodedRequest)
    (m : Metrics) :
    (∃ resp m', handleRequest U c net (.ok r) m = (some (.envelope resp), m')) ↔
      ∀ reason, (c.doRequest U net r.toNetworkRequest).Denies reason → ValidUTF8 reason := by
  rw [handleRequest]
  simp only [doRequest_filled]
  constructor
  · rintro ⟨resp, m', h⟩ reason hd
    by_contra hv
    rw [Metered.bind_none (observeDenial_of_invalid hd hv)] at h
    cases h
  · intro h
    obtain ⟨m₁, h₁⟩ := observeDenial_of_valid (m := m) r.validUTF8_mode h
    obtain ⟨m₂, h₂⟩ := observeRequest_of_valid (m := m₁) r.validUTF8_mode
    rw [Metered.bind_some h₁, Metered.bind_some h₂]
    exact ⟨_, m₂, rfl⟩

theorem denies_iff (U : Unicode) (c : Client) (net : Net) (req : NetworkRequest) :
    (c.doRequest U net req).Denies reason ↔
      ∃ status e, c.prepare U (net.lookup 0) req (requestMode req) = .error (status, e) ∧
        e.text = reason := by
  cases hp : c.prepare U (net.lookup 0) req (requestMode req) with
  | error x =>
    obtain ⟨status, e⟩ := x
    rw [doRequest_of_prepare_error hp]
    constructor
    · intro h
      exact ⟨status, e, rfl, Option.some.inj h.1⟩
    · rintro ⟨_, _, h, rfl⟩
      cases h
      exact ⟨rfl, prepare_status hp⟩
  | ok p =>
    constructor
    · intro h
      have hs := doRequest_of_prepare_ok hp h.1
      rcases h.2 with h' | h'
      · rw [hs] at h'
        cases h'
      · rw [hs] at h'
        cases h'
    · rintro ⟨_, _, h, _⟩
      cases h

/-- The handler answers every decoded request with its envelope, unless the request comes as far
as a refusal of its host that is not UTF-8. -/
theorem handleRequest_envelope_iff_not_garbles (U : Unicode) (cfg : Config) (net : Net)
    (r : DecodedRequest) (m : Metrics) :
    (∃ resp m', handleRequest U (newClient cfg) net (.ok r) m = (some (.envelope resp), m')) ↔
      ¬Garbles U (net.lookup 0) r.toNetworkRequest := by
  rw [handleRequest_envelope, ← prepare_garbled (newClient cfg) r.validUTF8_mode]
  constructor
  · rintro h ⟨status, e, he, hv⟩
    exact hv (h e.text ((denies_iff U _ net _).2 ⟨status, e, he, rfl⟩))
  · intro h reason hd
    obtain ⟨status, e, he, rfl⟩ := (denies_iff U _ net _).1 hd
    by_contra hv
    exact h ⟨status, e, he, hv⟩

/-- A resolver that knows no name. -/
def unknownHost : LookupIP := fun host => .error (lit "lookup " ++ host ++ lit ": no such host")

/-- A name with the byte 0xff that does not resolve. -/
def garbledRequest : DecodedRequest where
  url := lit "http://%ff.example/"
  method := lit "GET"
  body := none
  proxyMode := proxyModeDirect
  url_valid := validUTF8_lit _
  method_valid := validUTF8_lit _
  body_valid := nofun
  mode_valid := validUTF8_lit _

theorem handleRequest_garbledRequest :
    NamesHost unknownHost ∧
      (handleRequest asciiTables (newClient defaultConfig) ⟨fun _ => unknownHost, []⟩
        (.ok garbledRequest) Metrics.new).1.isNone = true := by
  constructor
  · intro host e he
    cases he
    exact ⟨lit "lookup ", lit ": no such host", validUTF8_lit _, validUTF8_lit _, rfl⟩
  · decide

end HyruleProxy
