import HyruleProxy.Handler

namespace HyruleProxy
set_option autoImplicit true

section
variable (U : Unicode)

/-- The error behind the response of `Client.Do`, if it has one. -/
def Client.failure (c : Client) (net : Net) (req : NetworkRequest) : Option GoError :=
  match (c.attempt U net req).2 with
  | .error (_, e) => some e
  | .ok _ => none

/-- A name that is looked up, and the resolver fails or answers with no address. -/
structure Unresolved (lookup : LookupIP) (host : GoString) : Prop where
  looksUp : LooksUp U host
  answer : ∀ addrs, defaultResolver lookup host = .ok addrs → addrs = []

/-- The gates that a request has passed when it is sent. -/
structure Client.Sends (c : Client) (lookup : LookupIP) (req : NetworkRequest) (mode : GoString)
    (p : Prepared) : Prop where
  method : normalizeMethod U req.method = .ok p.method
  url : ∃ parsed, parseAndValidateURL U req.url mode = .ok parsed ∧
    validateHost U parsed.hostname mode (defaultResolver lookup) = .ok () ∧
    newRequest parsed.string = .ok p.url
  body : ((req.body.getD []).length : Int) ≤ c.cfg.maxRequestBodyBytes
  client : c.clientForMode mode = .ok p.client

end

/-- The upstream replies, from a URL on, lead to a denial: of a dial, or of a redirect. -/
inductive DeniedHop (check : URL → List URL → Except GoError Unit) :
    List UpstreamReply → List URL → URL → Prop where
  | dial (he : e.policyDenied = true) : DeniedHop check (.failure e :: replies) via u
  | redirect (hc : check v (via ++ [u]) = .error e) (he : e.policyDenied = true) :
      DeniedHop check (.redirect location (.ok v) :: replies) via u
  | next (hc : check v (via ++ [u]) = .ok ()) (h : DeniedHop check replies (via ++ [u]) v) :
      DeniedHop check (.redirect location (.ok v) :: replies) via u

/-- A request whose failure gets the wrong status: its name does not resolve, or it is sent and a
later gate denies it. -/
inductive Client.Misclassified (U : Unicode) (c : Client) (net : Net) (req : NetworkRequest) :
    Prop where
  | unresolved (hn : normalizeMethod U req.method = .ok method)
      (hp : parseAndValidateURL U req.url (requestMode req) = .ok parsed)
      (hs : ¬SkipsResolution U parsed.hostname (requestMode req))
      (hr : Unresolved U (net.lookup 0) (trim parsed.hostname (lit "[]")))
  | denied (hs : c.Sends U (net.lookup 0) req (requestMode req) p)
      (hd : DeniedHop (p.client.checkRedirect U net) net.replies [] p.url)

section Gates

variable {U : Unicode} {c : Client} {net : Net} {req : NetworkRequest} {lookup : LookupIP}
  {mode host : GoString} {p : Prepared} {e : GoError}

theorem doRequest_error (U : Unicode) (c : Client) (net : Net) (req : NetworkRequest) :
    (c.doRequest U net req).error = (c.failure U net req).map GoError.text := by
  rw [Client.doRequest, Client.failure, Client.attempt]
  cases c.prepare U (net.lookup 0) req (requestMode req) with
  | error x => rfl
  | ok p =>
    simp only
    cases (follow U p.method (p.client.checkRedirect U net) net.replies [] p.url).2 with
    | error e => rfl
    | ok resp =>
      simp only
      rcases c.buildResponse_cases U resp (requestMode req) with ⟨e, hr⟩ | ⟨out, hr, ho, _⟩
      · rw [hr]
        rfl
      · rw [hr]
        exact ho

theorem validateResolvedHost_plain :
    (∃ e, validateResolvedHost U host mode (defaultResolver lookup) = .error e ∧
      e.policyDenied = false) ↔ Unresolved U lookup (trim host (lit "[]")) := by
  constructor
  · rintro ⟨e, h, hd⟩
    cases validateResolvedHost_error h with
    | literal => cases hd
    | localhost => cases hd
    | lookup hq he =>
      refine ⟨hq, ?_⟩
      intro addrs hr
      rw [defaultResolver, he] at hr
      cases hr
    | empty hq hr =>
      refine ⟨hq, ?_⟩
      intro addrs hr'
      rw [hr] at hr'
      cases hr'
      rfl
    | address => cases hd
  · rintro ⟨hq, ha⟩
    cases hr : defaultResolver lookup (trim host (lit "[]")) with
    | error e => exact ⟨.plain e, hq.resolver_error hr, rfl⟩
    | ok addrs =>
      rw [ha addrs hr] at hr
      exact ⟨_, hq.resolver_empty hr, rfl⟩

theorem validateHost_plain :
    (∃ e, validateHost U host mode (defaultResolver lookup) = .error e ∧
      e.policyDenied = false) ↔
      ¬SkipsResolution U host mode ∧ Unresolved U lookup (trim host (lit "[]")) := by
  rcases validateHost_eq U host mode (defaultResolver lookup) with ⟨he, hs⟩ | ⟨he, hs⟩
  · constructor
    · rintro ⟨e, h, _⟩
      rw [he] at h
      cases h
    · intro h
      exact absurd hs h.1
  · rw [he, validateResolvedHost_plain, and_iff_right hs]

theorem prepare_eq_ok_iff : c.prepare U lookup req mode = .ok p ↔ c.Sends U lookup req mode p := by
  constructor
  · intro h
    rw [Client.prepare] at h
    split at h
    · cases h
    · rename_i hn
      split at h
      · cases h
      · rename_i parsed hp
        split at h
        · cases h
        · rename_i hh
          split at h
          · cases h
          · rename_i hb
            split at h
            · cases h
            · rename_i hr
              split at h
              · cases h
              · rename_i hc
                cases h
                exact ⟨hn, ⟨parsed, hp, hh, hr⟩, not_lt.1 hb, hc⟩
  · rintro ⟨hn, ⟨parsed, hp, hh, hr⟩, hb, hc⟩
    simp only [Client.prepare, hn, hp, hh, hr, hc, if_neg (not_lt.2 hb)]

/-- The loop of `http.Client.Do` ends with a denial exactly when its replies lead to one. -/
theorem follow_denied {method : GoString} {replies : List UpstreamReply} {via : List URL} {u : URL}
    (check : URL → List URL → Except GoError Unit) :
    (∃ e, (follow U method check replies via u).2 = .error e ∧ e.policyDenied = true) ↔
      DeniedHop check replies via u := by
  induction replies generalizing via u with
  | nil =>
    constructor
    · rintro ⟨e, ⟨⟩, hd⟩
      cases hd
    · nofun
  | cons reply replies ih =>
    cases reply with
    | failure e =>
      constructor
      · rintro ⟨e', ⟨⟩, hd⟩
        exact .dial hd
      · rintro ⟨hd⟩
        exact ⟨_, rfl, hd⟩
    | response r =>
      constructor
      · rintro ⟨e, ⟨⟩, _⟩
      · nofun
    | redirect location target =>
      cases target with
      | error text =>
        constructor
        · rintro ⟨e, ⟨⟩, hd⟩
          cases hd
        · nofun
      | ok v =>
        cases hc : check v (via ++ [u]) with
        | error e =>
          simp only [follow, hc]
          constructor
          · rintro ⟨e', ⟨⟩, hd⟩
            exact .redirect hc hd
          · intro h
            cases h with
            | redirect hc' hd =>
              rw [hc] at hc'
              cases hc'
              exact ⟨_, rfl, hd⟩
            | next hc' =>
              rw [hc] at hc'
              cases hc'
        | ok x =>
          -- the hop passes, so the rest of the replies decides
          simp only [follow, hc]
          rw [ih]
          constructor
          · exact .next hc
          · intro h
            cases h with
            | redirect hc' =>
              rw [hc] at hc'
              cases hc'
            | next _ hn => exact hn

theorem failure_of_prepare_error
    (h : c.prepare U (net.lookup 0) req (requestMode req) = .error (status, e)) :
    c.failure U net req = some e := by
  rw [Client.failure, Client.attempt, h]

theorem failure_of_sends (hp : c.prepare U (net.lookup 0) req (requestMode req) = .ok p) :
    (∀ e, c.failure U net req = some e →
      (c.doRequest U net req).statusCode = 502) ∧
    ((∃ e, c.failure U net req = some e ∧ e.policyDenied = true) ↔
      DeniedHop (p.client.checkRedirect U net) net.replies [] p.url) := by
  have hfollow := @follow_denied U p.method net.replies [] p.url (p.client.checkRedirect U net)
  rw [← hfollow, Client.failure, Client.doRequest, Client.attempt, hp]
  simp only
  cases hf : (follow U p.method (p.client.checkRedirect U net) net.replies [] p.url).2 with
  | error e =>
    constructor
    · intro _ _
      rfl
    · constructor
      · rintro ⟨_, ⟨⟩, hd⟩
        exact ⟨e, rfl, hd⟩
      · rintro ⟨_, ⟨⟩, hd⟩
        exact ⟨_, rfl, hd⟩
  | ok resp =>
    simp only
    rcases c.buildResponse_cases U resp (requestMode req) with ⟨e, hr⟩ | ⟨out, hr, _⟩
    · rw [hr]
      constructor
      · intro _ _
        rfl
      · constructor
        · rintro ⟨_, ⟨⟩, hd⟩
          cases hd
        · rintro ⟨_, ⟨⟩, _⟩
    · rw [hr]
      constructor
      · intro e he
        cases he
      · constructor
        · rintro ⟨_, ⟨⟩, _⟩
        · rintro ⟨_, ⟨⟩, _⟩

theorem status_of_prepare_error
    (hp : c.prepare U (net.lookup 0) req (requestMode req) = .error (status, e)) :
    (status = 403 ↔ e.policyDenied = true) ↔ ¬c.Misclassified U net req := by
  constructor
  · intro h hm
    cases hm with
    | unresolved hn hu hs hr =>
      obtain ⟨e', he, hd⟩ := validateHost_plain.2 ⟨hs, hr⟩
      rw [prepare_host hn hu he] at hp
      cases hp
      rw [h.1 rfl] at hd
      cases hd
    | denied hs =>
      rw [prepare_eq_ok_iff.2 hs] at hp
      cases hp
  · intro hm
    cases prepare_error hp with
    | method hn =>
      rw [(normalizeMethod_error hn).2]
      exact iff_of_false (by decide) Bool.false_ne_true
    | url hn hu =>
      cases e.policyDenied with
      | true => exact iff_of_true rfl rfl
      | false => exact iff_of_false (by decide) Bool.false_ne_true
    | host hn hu he =>
      refine iff_of_true rfl ?_
      by_contra hd
      obtain ⟨hs, hr⟩ := validateHost_plain.1 ⟨e, he, by simpa using hd⟩
      exact hm (.unresolved hn hu hs hr)
    | body hb => exact iff_of_false (by decide) Bool.false_ne_true
    | request hu hr => exact iff_of_false (by decide) Bool.false_ne_true
    | mode hc =>
      rw [clientForMode_error hc]
      exact iff_of_false (by decide) Bool.false_ne_true

theorem status_of_sends (hp : c.prepare U (net.lookup 0) req (requestMode req) = .ok p) :
    (∀ e, c.failure U net req = some e →
      ((c.doRequest U net req).statusCode = 403 ↔ e.policyDenied = true)) ↔
      ¬c.Misclassified U net req := by
  obtain ⟨hst, hden⟩ := failure_of_sends hp
  have hsends := prepare_eq_ok_iff.1 hp
  constructor
  · intro h hm
    cases hm with
    | unresolved hn hu hs hr =>
      obtain ⟨e, he, _⟩ := validateHost_plain.2 ⟨hs, hr⟩
      rw [prepare_host hn hu he] at hp
      cases hp
    | denied hs hd =>
      rw [prepare_eq_ok_iff.2 hs] at hp
      cases hp
      obtain ⟨e, he, hd⟩ := hden.2 hd
      have h403 := (h e he).2 hd
      rw [hst e he] at h403
      cases h403
  · intro hm e he
    rw [hst e he]
    refine iff_of_false (by decide) ?_
    intro hd
    exact hm (.denied hsends (hden.1 ⟨e, he, hd⟩))

end Gates

/-- The error of a response shows the failure behind it, and its status is 403 exactly when this
is a denial. -/
def Client.Classifies (U : Unicode) (c : Client) (net : Net) (req : NetworkRequest) : Prop :=
  ∀ text, (c.doRequest U net req).error = some text →
    ∃ e, c.failure U net req = some e ∧ e.text = text ∧
      ((c.doRequest U net req).statusCode = 403 ↔ e.policyDenied = true)

theorem Client.classifies_iff (U : Unicode) (c : Client) (net : Net) (req : NetworkRequest) :
    c.Classifies U net req ↔ ∀ e, c.failure U net req = some e →
      ((c.doRequest U net req).statusCode = 403 ↔ e.policyDenied = true) := by
  rw [Client.Classifies, doRequest_error]
  constructor
  · intro h e he
    obtain ⟨e', he', _, hs⟩ := h e.text (by rw [he]; rfl)
    rw [he] at he'
    cases he'
    exact hs
  · intro h text ht
    obtain ⟨e, he, rfl⟩ := Option.map_eq_some_iff.1 ht
    exact ⟨e, he, rfl, h e he⟩

/-- Failures are classified by their status, unless the name of the request does not resolve or a
gate denies it after it was sent. -/
theorem classifies_iff_not_misclassified (U : Unicode) (cfg : Config) (net : Net)
    (req : NetworkRequest) : (newClient cfg).Classifies U net req ↔
      ¬(newClient cfg).Misclassified U net req := by
  rw [Client.classifies_iff]
  cases hp : (newClient cfg).prepare U (net.lookup 0) req (requestMode req) with
  | error x =>
    obtain ⟨status, e⟩ := x
    rw [← status_of_prepare_error hp, failure_of_prepare_error hp, doRequest_of_prepare_error hp]
    constructor
    · intro h
      exact h e rfl
    · rintro h e' ⟨rfl⟩
      exact h
  | ok p => exact status_of_sends hp

def exampleRequest : NetworkRequest where
  url := lit "http://example.com/"
  method := lit "GET"
  body := none
  proxyMode := proxyModeDirect

/-- One public address for every name. -/
def publicHost : LookupIP := fun _ => .ok [[93, 184, 216, 34]]

/-- An upstream that redirects to the loopback address. -/
def loopbackRedirect : UpstreamReply :=
  .redirect (lit "http://127.0.0.1/")
    ((urlParse (lit "http://127.0.0.1/")).mapError (·.text asciiTables))

/-- A name that does not resolve is reported with 403, and a denied redirect with 502. -/
theorem status_swapped :
    ((newClient defaultConfig).failure asciiTables ⟨fun _ => unknownHost, []⟩ exampleRequest).map
      (·.policyDenied) = some false ∧
    ((newClient defaultConfig).doRequest asciiTables ⟨fun _ => unknownHost, []⟩
      exampleRequest).statusCode = 403 ∧
    ((newClient defaultConfig).failure asciiTables ⟨fun _ => publicHost, [loopbackRedirect]⟩
      exampleRequest).map (·.policyDenied) = some true ∧
    ((newClient defaultConfig).doRequest asciiTables ⟨fun _ => publicHost, [loopbackRedirect]⟩
      exampleRequest).statusCode = 502 := by
  decide

end HyruleProxy
