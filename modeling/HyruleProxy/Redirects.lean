import HyruleProxy.Client

namespace HyruleProxy
set_option autoImplicit true

/-- Reading the text of the URL gives the same scheme, host and presence of userinfo. -/
def URL.RoundTrips (u : URL) : Prop :=
  ∀ v, urlParse u.string = .ok v →
    v.scheme = u.scheme ∧ v.host = u.host ∧ v.user.isSome = u.user.isSome

theorem URL.host_ne_nil {u : URL} (h : u.hostname ≠ []) : u.host ≠ [] := by
  intro he
  apply h
  rw [hostname, he]
  decide

theorem urlParse_roundTrips (hp : urlParse raw = .ok u) (hh : u.host ≠ []) : URL.RoundTrips u :=
  fun _ => urlParse_string u (urlParse_schemeOK hp) (urlParse_rootless hp hh) hh

/-- A run of `Client.Do` stays inside its mode. -/
structure Client.WithinMode (U : Unicode) (c : Client) (net : Net) (req : NetworkRequest) :
    Prop where
  bounded : ((c.attempt U net req).1.length : Int) ≤ max 0 c.cfg.maxRedirects + 1
  meets : ∀ u ∈ (c.attempt U net req).1, Meets U (requestMode req) u
  short : ∀ u ∈ (c.attempt U net req).1.tail, u.string.length ≤ maxURLLength

/-- The request passes the gates with a host of the form `name:port:`, whose name the mode
refuses: the gates read `name:port`, and the first request goes to `name`. -/
def Client.Renames (U : Unicode) (c : Client) (lookup : LookupIP) (req : NetworkRequest) : Prop :=
  ∃ parsed p name port, parseAndValidateURL U req.url (requestMode req) = .ok parsed ∧
    c.prepare U lookup req (requestMode req) = .ok p ∧
    parsed.host = name ++ ch ':' :: (port ++ [ch ':']) ∧ port.all isDigit = true ∧
    ¬(stripBrackets name ≠ [] ∧
      nameRule (requestMode req) (canonicalHost U (stripBrackets name)) = true)

theorem Meets.of_roundTrip (h : Meets U mode v) (hs : v.scheme = u.scheme) (hh : v.host = u.host)
    (hu : v.user.isSome = u.user.isSome) : Meets U mode u := by
  have hn : v.hostname = u.hostname := by rw [URL.hostname, URL.hostname, hh]
  obtain ⟨h1, h2, h3, h4⟩ := h
  rw [hs] at h1
  rw [hn] at h2 h4
  rw [h3] at hu
  exact ⟨h1, h2, by simpa using hu.symm, h4⟩

theorem redirectPolicy_eq_ok (hr : URL.RoundTrips u)
    (h : redirectPolicy U mode maxRedirects resolver u via = .ok ()) :
    (via.length : Int) ≤ maxRedirects ∧ Meets U mode u ∧ u.string.length ≤ maxURLLength := by
  rw [redirectPolicy, redirectPolicyQ] at h
  split at h
  · cases h
  · rename_i hl
    split at h
    · cases h
    · rename_i v hv
      obtain ⟨hlen, hp, hm⟩ := parseAndValidateURL_eq_ok.1 hv
      obtain ⟨hs, hh, hu⟩ := hr v hp
      exact ⟨Int.not_lt.1 hl, hm.of_roundTrip hs hh hu, hlen⟩

/-- The URLs that are followed pass the check, and each check sees all URLs before it. -/
theorem follow_sent {P : URL → Prop} (M : Int)
    (hc : ∀ location v via, UpstreamReply.redirect location (.ok v) ∈ replies →
      check v via = .ok () →
      (via.length : Int) ≤ M ∧ P v) :
    ∃ more, (follow U method check replies via u).1 = via ++ u :: more ∧ (∀ v ∈ more, P v) ∧
      (more = [] ∨ (via.length + more.length : Int) ≤ M) := by
  induction replies generalizing via u with
  | nil => exact ⟨[], rfl, List.forall_mem_nil P, .inl rfl⟩
  | cons reply replies ih =>
    cases reply with
    | failure e => exact ⟨[], rfl, List.forall_mem_nil P, .inl rfl⟩
    | response r => exact ⟨[], rfl, List.forall_mem_nil P, .inl rfl⟩
    | redirect location target =>
      cases target with
      | error e => exact ⟨[], rfl, List.forall_mem_nil P, .inl rfl⟩
      | ok v =>
        simp only [follow]
        split
        · exact ⟨[], rfl, List.forall_mem_nil P, .inl rfl⟩
        · rename_i hv
          obtain ⟨hl, hpv⟩ := hc location v (via ++ [u]) List.mem_cons_self hv
          have hi : ∃ more, (follow U method check replies (via ++ [u]) v).1 =
              via ++ [u] ++ v :: more ∧ (∀ w ∈ more, P w) ∧
                (more = [] ∨ ((via ++ [u]).length + more.length : Int) ≤ M) := by
            apply ih
            intro l w vs hw
            exact hc l w vs (List.mem_cons_of_mem _ hw)
          obtain ⟨more, he, hp, hm⟩ := hi
          refine ⟨v :: more, by rw [he]; simp, List.forall_mem_cons.2 ⟨hpv, hp⟩, .inr ?_⟩
          rw [List.length_append, List.length_singleton] at hl hm
          rw [List.length_cons]
          cases hm with
          | inl hm =>
            rw [hm, List.length_nil]
            omega
          | inr hm => omega

theorem prepare_eq_ok (h : Client.prepare U c lookup req mode = .ok p) :
    ∃ parsed v, parseAndValidateURL U req.url mode = .ok parsed ∧
      validateHost U parsed.hostname mode (defaultResolver lookup) = .ok () ∧
        urlParse parsed.string = .ok v ∧ p.url = { v with host := removeEmptyPort v.host } ∧
          c.clientForMode mode = .ok p.client := by
  rw [Client.prepare] at h
  split at h
  · cases h
  · split at h
    · cases h
    · rename_i parsed hp
      split at h
      · cases h
      · rename_i hg
        split at h
        · cases h
        · split at h
          · cases h
          · rename_i u hu
            split at h
            · cases h
            · rename_i client hc
              cases h
              obtain ⟨v, hv, he⟩ := map_eq_ok hu
              exact ⟨parsed, v, hp, hg, hv, he.symm, hc⟩

theorem clientForMode_newClient (h : (newClient cfg).clientForMode mode = .ok client) :
    client.mode = mode ∧ client.maxRedirects = cfg.maxRedirects := by
  rw [Client.clientForMode] at h
  split at h
  · rename_i hm
    cases h
    exact ⟨hm.symm, rfl⟩
  · split at h
    · rename_i hm
      cases h
      exact ⟨hm.symm, rfl⟩
    · split at h
      · rename_i hm
        cases h
        exact ⟨hm.symm, rfl⟩
      · split at h
        · rename_i hm
          cases h
          exact ⟨hm.symm, rfl⟩
        · cases h

theorem lit_colon : lit ":" = [ch ':'] := by
  decide

theorem removeEmptyPort_append (host : GoString) :
    removeEmptyPort (host ++ [ch ':']) = host := by
  have hp : hasPort (host ++ [ch ':']) = true := by
    rw [hasPort, cutLast_append List.not_mem_nil]
    simp
  have hs : hasSuffix (host ++ [ch ':']) (lit ":") = true := by
    rw [hasSuffix, lit_colon, List.isSuffixOf_iff_suffix]
    exact List.suffix_append _ _
  rw [removeEmptyPort, if_pos hp, trimSuffix, if_pos hs, lit_colon]
  simp

theorem removeEmptyPort_of_not (h : ∀ pre, host ≠ pre ++ [ch ':']) :
    removeEmptyPort host = host := by
  have hs : hasSuffix host (lit ":") = false := by
    apply Bool.eq_false_iff.2
    intro hs
    rw [hasSuffix, lit_colon, List.isSuffixOf_iff_suffix] at hs
    obtain ⟨pre, he⟩ := hs
    exact h pre he.symm
  rw [removeEmptyPort, trimSuffix, hs]
  simp

theorem urlSplitHostPort_emptyPort (host : GoString) :
    (urlSplitHostPort (host ++ [ch ':'])).1 = stripBrackets host := by
  rw [urlSplitHostPort, cutLast_append List.not_mem_nil]
  rfl

theorem hostname_removeEmptyPort (host : GoString) :
    (urlSplitHostPort (removeEmptyPort host)).1 = (urlSplitHostPort host).1 ∨
      ∃ name port, host = name ++ ch ':' :: (port ++ [ch ':']) ∧ port.all isDigit = true ∧
        (urlSplitHostPort (removeEmptyPort host)).1 = stripBrackets name := by
  by_cases h : ∃ pre, host = pre ++ [ch ':']
  · obtain ⟨pre, rfl⟩ := h
    rw [removeEmptyPort_append, urlSplitHostPort_emptyPort, urlSplitHostPort]
    split
    · rename_i name port hc
      split
      · rename_i hv
        refine .inr ⟨name, port, ?_, ?_, rfl⟩
        · rw [(cutLast_eq_some hc).1]
          simp
        · simpa [validOptionalPort] using hv
      · exact .inl rfl
    · exact .inl rfl
  · rw [removeEmptyPort_of_not (fun pre he => h ⟨pre, he⟩)]
    exact .inl rfl

theorem hostname_of_doublePort (name : GoString) (hp : port.all isDigit = true) :
    (urlSplitHostPort (removeEmptyPort (name ++ ch ':' :: (port ++ [ch ':'])))).1 =
      stripBrackets name := by
  have he : name ++ ch ':' :: (port ++ [ch ':']) = (name ++ ch ':' :: port) ++ [ch ':'] := by simp
  have hn : ch ':' ∉ port := by
    intro hm
    exact absurd (List.all_eq_true.1 hp _ hm) (by decide)
  rw [he, removeEmptyPort_append, urlSplitHostPort, cutLast_append hn]
  simp only [validOptionalPort, hp]
  rfl

/-- The first request meets the rules unless dropping an empty port uncovers another name. -/
theorem meets_newRequest (hv : parseAndValidateURL U raw mode = .ok parsed)
    (hp : urlParse parsed.string = .ok v) :
    Meets U mode { v with host := removeEmptyPort v.host } ↔
      ∀ name port, parsed.host = name ++ ch ':' :: (port ++ [ch ':']) → port.all isDigit = true →
        stripBrackets name ≠ [] ∧ nameRule mode (canonicalHost U (stripBrackets name)) = true := by
  obtain ⟨_, hraw, hm⟩ := parseAndValidateURL_eq_ok.1 hv
  obtain ⟨hs, hh, hu⟩ := urlParse_roundTrips hraw (URL.host_ne_nil hm.hostname) v hp
  have huser : v.user = none := by
    rw [hm.user] at hu
    simpa using hu
  have hscheme : v.scheme = lit "http" ∨ v.scheme = lit "https" := by
    rw [hs]
    exact hm.scheme
  rw [hh]
  constructor
  · intro h name port he hd
    have hn := hostname_of_doublePort name hd
    have h2 := h.hostname
    have h4 := h.name
    rw [URL.hostname, he, hn] at h2 h4
    exact ⟨h2, h4⟩
  · intro h
    rcases hostname_removeEmptyPort parsed.host with he | ⟨name, port, he, hd, hn⟩
    · refine ⟨hscheme, ?_, huser, ?_⟩
      · rw [URL.hostname, he]
        exact hm.hostname
      · rw [URL.hostname, he]
        exact hm.name
    · obtain ⟨h2, h4⟩ := h name port he hd
      refine ⟨hscheme, ?_, huser, ?_⟩
      · rw [URL.hostname, hn]
        exact h2
      · rw [URL.hostname, hn]
        exact h4

theorem attempt_sent (h : Client.prepare U c (net.lookup 0) req (requestMode req) = .ok p) :
    (c.attempt U net req).1 =
      (follow U p.method (p.client.checkRedirect U net) net.replies [] p.url).1 := by
  rw [Client.attempt, h]
  simp only
  split
  · rfl
  · rfl

theorem attempt_redirects
    (hr : ∀ location v, UpstreamReply.redirect location (.ok v) ∈ net.replies → URL.RoundTrips v)
    (hp : (newClient cfg).prepare U (net.lookup 0) req (requestMode req) = .ok p) :
    ∃ more, ((newClient cfg).attempt U net req).1 = p.url :: more ∧
      (∀ u ∈ more, Meets U (requestMode req) u ∧ u.string.length ≤ maxURLLength) ∧
      (more = [] ∨ (([] : List URL).length + more.length : Int) ≤ cfg.maxRedirects) := by
  obtain ⟨_, _, _, _, _, _, hclient⟩ := prepare_eq_ok hp
  obtain ⟨hmode, hmax⟩ := clientForMode_newClient hclient
  rw [attempt_sent hp]
  apply follow_sent
  intro location w via hw hc
  have hok := redirectPolicy_eq_ok (hr location w hw) hc
  rw [hmode, hmax] at hok
  exact hok

theorem Client.withinMode_of_nil {c : Client} (hs : (c.attempt U net req).1 = []) :
    c.WithinMode U net req := by
  constructor
  · rw [hs, List.length_nil]
    omega
  · rw [hs]
    exact List.forall_mem_nil _
  · rw [hs]
    exact List.forall_mem_nil _

theorem Client.withinMode_of_cons {c : Client} (hs : (c.attempt U net req).1 = u :: more)
    (hm : Meets U (requestMode req) u)
    (hmore : ∀ u ∈ more, Meets U (requestMode req) u ∧ u.string.length ≤ maxURLLength)
    (hb : more = [] ∨ (([] : List URL).length + more.length : Int) ≤ c.cfg.maxRedirects) :
    c.WithinMode U net req := by
  constructor
  · rw [hs, List.length_cons]
    cases hb with
    | inl hnil =>
      rw [hnil, List.length_nil]
      omega
    | inr hle =>
      rw [List.length_nil] at hle
      omega
  · rw [hs]
    exact List.forall_mem_cons.2 ⟨hm, fun u hu => (hmore u hu).1⟩
  · rw [hs]
    exact fun u hu => (hmore u hu).2

/-- Redirect chains stay inside the mode, exactly when the first request keeps the name that the
gates have checked. -/
theorem Client.withinMode_iff_not_renames (U : Unicode) (cfg : Config) (net : Net)
    (req : NetworkRequest)
    (hr : ∀ location v, UpstreamReply.redirect location (.ok v) ∈ net.replies → URL.RoundTrips v) :
    (newClient cfg).WithinMode U net req ↔ ¬(newClient cfg).Renames U (net.lookup 0) req := by
  cases hp : (newClient cfg).prepare U (net.lookup 0) req (requestMode req) with
  | error e =>
    have hs : ((newClient cfg).attempt U net req).1 = [] := by
      rw [Client.attempt, hp]
    constructor
    · rintro _ ⟨_, p, _, _, _, hp', _⟩
      rw [hp] at hp'
      cases hp'
    · intro _
      exact withinMode_of_nil hs
  | ok p =>
    obtain ⟨parsed, v, hv, _, hparse, hurl, _⟩ := prepare_eq_ok hp
    obtain ⟨more, hsent, hmore, hbound⟩ := attempt_redirects hr hp
    have hfirst := meets_newRequest hv hparse
    rw [← hurl] at hfirst
    constructor
    · rintro h ⟨parsed', _, name, port, hv', _, he, hd, hn⟩
      rw [hv] at hv'
      cases hv'
      apply hn
      apply hfirst.1 _ name port he hd
      apply h.meets
      rw [hsent]
      exact List.mem_cons_self
    · intro hn
      have hm : Meets U (requestMode req) p.url := by
        apply hfirst.2
        intro name port he hd
        by_contra hbad
        exact hn ⟨parsed, p, name, port, hv, hp, he, hd, hbad⟩
      exact withinMode_of_cons hsent hm hmore hbound

def publicURL (host : GoString) : URL where
  scheme := lit "http"
  host := host
  path := lit "/"

/-- A redirect from one public address to another. -/
def redirectedNet : Net where
  lookup _ _ := .error (lit "no such host")
  replies := [.redirect (lit "http://1.0.0.1/") (.ok (publicURL (lit "1.0.0.1"))),
    .response ⟨200, [], ⟨lit "ok", none⟩⟩]

theorem withinMode_redirectedNet :
    (∀ location v, UpstreamReply.redirect location (.ok v) ∈ redirectedNet.replies →
      URL.RoundTrips v) ∧
      (newClient defaultConfig).WithinMode asciiTables redirectedNet
        ⟨lit "http://1.1.1.1/", [], none, []⟩ := by
  have hr : ∀ location v, UpstreamReply.redirect location (.ok v) ∈ redirectedNet.replies →
      URL.RoundTrips v := by
    intro location v hm
    rw [redirectedNet, List.mem_cons, List.mem_singleton] at hm
    cases hm with
    | inr hm => cases hm
    | inl hm =>
      cases hm
      have hp : urlParse (lit "http://1.0.0.1/") = .ok (publicURL (lit "1.0.0.1")) := by
        decide
      exact urlParse_roundTrips hp (by decide)
  refine ⟨hr, (Client.withinMode_iff_not_renames _ _ _ _ hr).2 ?_⟩
  rintro ⟨parsed, _, name, port, hv, _, he, _⟩
  have hu : urlParse (lit "http://1.1.1.1/") = .ok (publicURL (lit "1.1.1.1")) := by
    decide
  have hp := (parseAndValidateURL_eq_ok.1 hv).2.1
  rw [hu] at hp
  cases hp
  have hc : ch ':' ∉ (publicURL (lit "1.1.1.1")).host := by decide
  apply hc
  rw [he]
  simp

/-- An empty port hides a name of another network from the gates. -/
theorem withinMode_emptyPort :
    ¬(newClient defaultConfig).WithinMode asciiTables
      ⟨fun _ _ => .error (lit "no such host"), [.response ⟨200, [], ⟨lit "ok", none⟩⟩]⟩
      ⟨lit "http://2606:4700::1%25x.onion:80:/", [], none, proxyModeDirect⟩ := by
  intro h
  have hs : ((newClient defaultConfig).attempt asciiTables
      ⟨fun _ _ => .error (lit "no such host"), [.response ⟨200, [], ⟨lit "ok", none⟩⟩]⟩
      ⟨lit "http://2606:4700::1%25x.onion:80:/", [], none, proxyModeDirect⟩).1.any
        (fun u => !nameRule proxyModeDirect (canonicalHost asciiTables u.hostname)) = true := by
    decide
  obtain ⟨u, hu, hn⟩ := List.any_eq_true.1 hs
  have hm := (h.meets u hu).name
  rw [show requestMode _ = proxyModeDirect from rfl] at hm
  rw [hm] at hn
  cases hn

end HyruleProxy
