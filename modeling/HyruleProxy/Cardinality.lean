import HyruleProxy.Counting
import HyruleProxy.RequestSize
import HyruleProxy.StatusClass

namespace HyruleProxy
set_option autoImplicit true

theorem finite_results {S : Set α} (hS : S.Finite) {R : α → β → Prop}
    (hR : ∀ x y y', R x y → R x y' → y = y') : {y | ∃ x ∈ S, R x y}.Finite := by
  refine (hS.biUnion fun x _ => Set.Subsingleton.finite fun y hy y' hy' => hR x y y' hy hy').subset
    ?_
  rintro y ⟨x, hx, hy⟩
  exact Set.mem_biUnion hx hy

/-- A request to the handler as it comes in, with what it meets outside: the resolver and the
upstream servers, whose statuses are of the type `int`, and the texts of the decoder's errors. -/
structure Exchange where
  net : Net
  body : Body
  jsonError : DecodeError → GoString
  status : ∀ r, UpstreamReply.response r ∈ net.replies →
    -2 ^ 63 ≤ r.statusCode ∧ r.statusCode < 2 ^ 63

/-- What `decodeLimitedJSON` makes of the body. -/
def Exchange.input (cfg : Config) (x : Exchange) : Except GoString DecodedRequest :=
  cfg.decodeBody x.jsonError x.body

abbrev Tuple := Series × List GoString

section
variable (U : Unicode) (cfg : Config)

/-- The tuple that `handleRequest` counts a denial under. -/
def denialTuples (mode : GoString) (resp : NetworkResponse) : List Tuple :=
  match resp.error with
  | some reason =>
    if resp.statusCode = 400 ∨ resp.statusCode = 403 then [(.policyDenialsTotal, [mode, reason])]
    else []
  | none => []

def requestTuples (mode : GoString) (resp : NetworkResponse) : List Tuple :=
  [(.requestsTotal, [mode, statusClass resp.statusCode]), (.requestDuration, [mode]),
    (.requestBytesTotal, [mode]), (.responseBytesTotal, [mode])]

/-- The tuples that the handler passes to `WithLabelValues`, up to the one that panics. -/
def labelTuples (c : Client) (net : Net) : Except GoString DecodedRequest → List Tuple
  | .error _ => []
  | .ok r =>
    let mode := requestMode r.toNetworkRequest
    let resp := c.doRequest U net r.toNetworkRequest
    if ∀ p ∈ denialTuples mode resp, ∀ l ∈ p.2, ValidUTF8 l then
      denialTuples mode resp ++ requestTuples mode resp
    else denialTuples mode resp

def passed (x : Exchange) : List Tuple := labelTuples U (newClient cfg) x.net (x.input cfg)

/-- The metrics after a list of requests. -/
def serve (m : Metrics) (xs : List Exchange) : Metrics :=
  xs.foldl (fun m x => (handleRequest U (newClient cfg) x.net (x.input cfg) m).2) m

/-- The number of label tuples has a bound that neither the limits nor the requests change: under
each configuration the handler serves any list of the requests of a set. -/
def BoundedLabels (A : Config → Set Exchange) : Prop :=
  ∃ N, ∀ cfg, ∀ xs : List Exchange, (∀ x ∈ xs, x ∈ A cfg) →
    (xs.flatMap (passed U cfg)).toFinset.card ≤ N

/-- The modes of the requests. -/
def modesOf (A : Set Exchange) : Set GoString :=
  {mode | ∃ x ∈ A, ∃ r, x.input cfg = .ok r ∧ requestMode r.toNetworkRequest = mode}

/-- The methods of the requests, in upper case, that are not allowed. -/
def refusedMethods (A : Set Exchange) : Set GoString :=
  {method | ∃ x ∈ A, ∃ r, x.input cfg = .ok r ∧ upperMethod U r.method = method ∧
    method ∉ allowedMethods}

/-- The resolver's errors on the hosts of the requests that come as far as the lookup. -/
def lookupErrors (A : Set Exchange) : Set GoString :=
  {e | ∃ x ∈ A, ∃ r method parsed, x.input cfg = .ok r ∧
    normalizeMethod U r.method = .ok method ∧
    parseAndValidateURL U r.url (requestMode r.toNetworkRequest) = .ok parsed ∧
    ¬SkipsResolution U parsed.hostname (requestMode r.toNetworkRequest) ∧
    LooksUp U (trim parsed.hostname (lit "[]")) ∧
    x.net.lookup 0 (trim parsed.hostname (lit "[]")) = .error e}

end

section Metered

instance labelsTransOrd : Std.TransOrd (List GoString) := inferInstance

/-- The tuples under which the families have a value. -/
def Metrics.tuples (m : Metrics) : Set Tuple := {p | (m.vec p.1)[p.2]?.isSome}

theorem Metrics.tuples_add (series : Series) (n : Nat) (h : ∀ l ∈ labels, ValidUTF8 l)
    (m : Metrics) : ∃ m', Metrics.add series labels n m = (some (), m') ∧
      m'.tuples = insert (series, labels) m.tuples := by
  rw [Metrics.add, if_pos h]
  refine ⟨_, rfl, ?_⟩
  ext ⟨series', labels'⟩
  rw [Set.mem_insert_iff, Prod.mk.injEq]
  simp only [Metrics.tuples, Set.mem_ofPred_eq, Function.update_apply]
  split
  · rename_i hs
    subst hs
    rw [GoMap.get_insert]
    by_cases hl : labels = labels'
    · simp [hl]
    · simp [hl, Ne.symm hl]
  · rename_i hs
    simp [hs]

/-- The tuples of a list that `WithLabelValues` accepts. -/
def validTuples (ps : List Tuple) : Set Tuple := {p | p ∈ ps ∧ ∀ l ∈ p.2, ValidUTF8 l}

theorem observeRequest_tuples (hm : ValidUTF8 mode) (resp : NetworkResponse) (reqBytes : Nat)
    (m : Metrics) : ∃ m', observeRequest mode resp.statusCode reqBytes resp.body.length m =
        (some (), m') ∧ m'.tuples = m.tuples ∪ validTuples (requestTuples mode resp) := by
  have hmode : ∀ l ∈ [mode], ValidUTF8 l := List.forall_mem_singleton.2 hm
  have hpair : ∀ l ∈ [mode, statusClass resp.statusCode], ValidUTF8 l :=
    List.forall_mem_cons.2 ⟨hm, List.forall_mem_singleton.2 (validUTF8_statusClass _)⟩
  obtain ⟨m₁, h₁, t₁⟩ := Metrics.tuples_add .requestsTotal 1 hpair m
  obtain ⟨m₂, h₂, t₂⟩ := Metrics.tuples_add .requestDuration 1 hmode m₁
  obtain ⟨m₃, h₃, t₃⟩ := Metrics.tuples_add .requestBytesTotal reqBytes hmode m₂
  obtain ⟨m₄, h₄, t₄⟩ := Metrics.tuples_add .responseBytesTotal resp.body.length hmode m₃
  refine ⟨m₄, ?_, ?_⟩
  · rw [observeRequest, Metered.bind_some h₁, Metered.bind_some h₂, Metered.bind_some h₃]
    exact h₄
  · rw [t₄, t₃, t₂, t₁]
    have hall : validTuples (requestTuples mode resp) = {p | p ∈ requestTuples mode resp} := by
      ext p
      refine and_iff_left_of_imp ?_
      intro hp
      simp only [requestTuples, List.mem_cons, List.not_mem_nil, or_false] at hp
      rcases hp with rfl | rfl | rfl | rfl
      · exact hpair
      · exact hmode
      · exact hmode
      · exact hmode
    rw [hall]
    ext p
    simp only [requestTuples, Set.mem_insert_iff, Set.mem_union, Set.mem_ofPred_eq, List.mem_cons,
      List.not_mem_nil, or_false]
    tauto

theorem validTuples_append (ps qs : List Tuple) :
    validTuples (ps ++ qs) = validTuples ps ∪ validTuples qs := by
  ext p
  simp only [validTuples, List.mem_append, Set.mem_union, Set.mem_ofPred_eq, or_and_right]

theorem denialTuples_cases (mode : GoString) (resp : NetworkResponse) :
    denialTuples mode resp = [] ∧ observeDenial mode resp = pure () ∨
      ∃ reason, denialTuples mode resp = [(.policyDenialsTotal, [mode, reason])] ∧
        observeDenial mode resp = observePolicyDenial mode reason := by
  rw [denialTuples, observeDenial]
  cases resp.error with
  | none => exact .inl ⟨rfl, rfl⟩
  | some reason =>
    by_cases hs : resp.statusCode = 400 ∨ resp.statusCode = 403
    · exact .inr ⟨reason, if_pos hs, if_pos hs⟩
    · exact .inl ⟨if_neg hs, if_neg hs⟩

theorem observeDenial_tuples (resp : NetworkResponse) (m : Metrics)
    (h : ∀ p ∈ denialTuples mode resp, ∀ l ∈ p.2, ValidUTF8 l) :
    ∃ m', observeDenial mode resp m = (some (), m') ∧
      m'.tuples = m.tuples ∪ validTuples (denialTuples mode resp) := by
  rcases denialTuples_cases mode resp with ⟨ht, ho⟩ | ⟨reason, ht, ho⟩
  · rw [ht, ho]
    exact ⟨m, rfl, by simp [validTuples]⟩
  · rw [ht, List.forall_mem_singleton] at h
    obtain ⟨m', hm', hins⟩ := Metrics.tuples_add .policyDenialsTotal 1 h m
    refine ⟨m', by rw [ho]; exact hm', ?_⟩
    rw [hins, ht]
    ext p
    simp only [validTuples, List.mem_singleton, Set.mem_insert_iff, Set.mem_union,
      Set.mem_ofPred_eq]
    constructor
    · rintro (rfl | hp)
      · exact .inr ⟨rfl, h⟩
      · exact .inl hp
    · rintro (hp | hp)
      · exact .inr hp
      · exact .inl hp.1

theorem observeDenial_panics (resp : NetworkResponse) (m : Metrics)
    (h : ¬∀ p ∈ denialTuples mode resp, ∀ l ∈ p.2, ValidUTF8 l) :
    observeDenial mode resp m = (none, m) ∧ validTuples (denialTuples mode resp) = ∅ := by
  rcases denialTuples_cases mode resp with ⟨ht, _⟩ | ⟨reason, ht, ho⟩
  · rw [ht] at h
    exact absurd (List.forall_mem_nil _) h
  · rw [ht, List.forall_mem_singleton] at h
    rw [ht, ho, observePolicyDenial, Metrics.add, if_neg h]
    refine ⟨rfl, ?_⟩
    ext p
    simp only [validTuples, List.mem_singleton, Set.mem_ofPred_eq, Set.mem_empty_iff_false,
      iff_false, not_and]
    rintro rfl
    exact h

/-- What a request leaves in the metrics: the tuples it passes, but for the one that panics. -/
theorem handleRequest_tuples (U : Unicode) (c : Client) (net : Net)
    (input : Except GoString DecodedRequest) (m : Metrics) :
    (handleRequest U c net input m).2.tuples =
      m.tuples ∪ validTuples (labelTuples U c net input) := by
  cases input with
  | error e =>
    simp [handleRequest, labelTuples, validTuples, pure, OptionT.pure, OptionT.mk, StateT.pure]
  | ok r =>
    have hm := r.validUTF8_mode
    rw [handleRequest, labelTuples]
    simp only [doRequest_filled]
    split
    · rename_i hv
      obtain ⟨m₁, h₁, t₁⟩ := observeDenial_tuples _ m hv
      obtain ⟨m₂, h₂, t₂⟩ := observeRequest_tuples hm (c.doRequest U net r.toNetworkRequest)
        (r.body.getD []).length m₁
      rw [Metered.bind_some h₁, Metered.bind_some h₂, validTuples_append, ← Set.union_assoc, ← t₁]
      exact t₂
    · rename_i hv
      obtain ⟨h₁, ht⟩ := observeDenial_panics _ m hv
      rw [Metered.bind_none h₁, ht, Set.union_empty]

/-- After any requests the families hold exactly the valid tuples that were passed. -/
theorem serve_tuples (U : Unicode) (cfg : Config) (m : Metrics) (xs : List Exchange) :
    (serve U cfg m xs).tuples = m.tuples ∪ validTuples (xs.flatMap (passed U cfg)) := by
  induction xs generalizing m with
  | nil => simp [serve, validTuples]
  | cons x xs ih =>
    rw [List.flatMap_cons, validTuples_append, ← Set.union_assoc, passed, ← handleRequest_tuples]
    exact ih _

end Metered

section Bounds

variable {U : Unicode} {cfg : Config} {A : Set Exchange} {x : Exchange} {r : DecodedRequest}
  {T : Config → Set Exchange}

/-- All tuples that the requests of a set pass. -/
def tuplesOf (U : Unicode) (cfg : Config) (A : Set Exchange) : Set Tuple :=
  {p | ∃ x ∈ A, p ∈ passed U cfg x}

theorem denialTuples_subset_passed (hx : x.input cfg = .ok r) :
    denialTuples (requestMode r.toNetworkRequest)
      ((newClient cfg).doRequest U x.net r.toNetworkRequest) ⊆ passed U cfg x := by
  rw [passed, hx, labelTuples]
  split
  · exact List.subset_append_left _ _
  · exact List.Subset.refl _

theorem exists_passed_mode (hx : x.input cfg = .ok r) :
    ∃ p ∈ passed U cfg x, p.2.head? = some (requestMode r.toNetworkRequest) := by
  rw [passed, hx, labelTuples]
  split
  · refine ⟨(.requestDuration, [requestMode r.toNetworkRequest]), ?_, rfl⟩
    exact List.mem_append_right _ (by simp [requestTuples])
  · rename_i hv
    push Not at hv
    obtain ⟨p, hp, _⟩ := hv
    refine ⟨p, hp, ?_⟩
    rcases denialTuples_cases (requestMode r.toNetworkRequest)
      ((newClient cfg).doRequest U x.net r.toNetworkRequest) with ⟨ht, _⟩ | ⟨reason, ht, _⟩
    · rw [ht] at hp
      cases hp
    · rw [ht, List.mem_singleton] at hp
      rw [hp]
      rfl

theorem mem_passed_of_refused (hx : x.input cfg = .ok r)
    (h : (newClient cfg).prepare U (x.net.lookup 0) r.toNetworkRequest
      (requestMode r.toNetworkRequest) = .error (status, e)) :
    (.policyDenialsTotal, [requestMode r.toNetworkRequest, e.text]) ∈ passed U cfg x := by
  apply denialTuples_subset_passed hx
  obtain ⟨he, hs⟩ := (denies_iff U (newClient cfg) x.net r.toNetworkRequest).2 ⟨status, e, h, rfl⟩
  rw [denialTuples, he]
  simp only [if_pos hs, List.mem_singleton]

theorem modesOf_subset : modesOf cfg A ⊆ (fun p => p.2.headD []) '' tuplesOf U cfg A := by
  rintro mode ⟨x, hx, r, hr, rfl⟩
  obtain ⟨p, hp, hm⟩ := exists_passed_mode (U := U) hr
  exact ⟨p, ⟨x, hx, hp⟩, by simp [List.headD_eq_head?_getD, hm]⟩

theorem refusedMethods_subset : refusedMethods U cfg A ⊆
    (fun p => (p.2.getD 1 []).drop (lit "unsupported HTTP method: ").length) ''
      tuplesOf U cfg A := by
  rintro method ⟨x, hx, r, hr, rfl, hm⟩
  have hn : normalizeMethod U r.method = .error (.plain (lit "unsupported HTTP method: " ++
      upperMethod U r.method)) := by
    rw [normalizeMethod_eq, if_neg hm]
  have hp : (newClient cfg).prepare U (x.net.lookup 0) r.toNetworkRequest
      (requestMode r.toNetworkRequest) =
        .error (400, .plain (lit "unsupported HTTP method: " ++ upperMethod U r.method)) := by
    simp only [Client.prepare, hn]
  exact ⟨_, ⟨x, hx, mem_passed_of_refused hr hp⟩, List.drop_left⟩

theorem lookupErrors_subset :
    lookupErrors U cfg A ⊆ (fun p => p.2.getD 1 []) '' tuplesOf U cfg A := by
  rintro e ⟨x, hx, r, method, parsed, hr, hn, hu, hs, hq, he⟩
  have hhost : validateHost U parsed.hostname (requestMode r.toNetworkRequest)
      (defaultResolver (x.net.lookup 0)) = .error (.plain e) := by
    rcases validateHost_eq U parsed.hostname (requestMode r.toNetworkRequest)
      (defaultResolver (x.net.lookup 0)) with ⟨_, hs'⟩ | ⟨heq, _⟩
    · exact absurd hs' hs
    · rw [heq]
      exact hq.lookup_error he
  exact ⟨_, ⟨x, hx, mem_passed_of_refused hr (prepare_host hn hu hhost)⟩, rfl⟩

/-- The texts of the errors before a request is sent. -/
def reasonsOf (U : Unicode) (cfg : Config) (A : Set Exchange) : Set GoString :=
  {text | ∃ x ∈ A, ∃ r status e, x.input cfg = .ok r ∧
    (newClient cfg).prepare U (x.net.lookup 0) r.toNetworkRequest
      (requestMode r.toNetworkRequest) = .error (status, e) ∧ e.text = text}

def shortURLs : Set GoString := {raw | raw.length ≤ maxURLLength}

theorem shortURLs_finite : shortURLs.Finite := List.finite_length_le UInt8 maxURLLength

theorem finite_noZone : {a : Addr | a.zone = []}.Finite := by
  have h4 : Finite Octets := inferInstanceAs (Finite (List.Vector UInt8 4))
  have h6 : Finite Groups := inferInstanceAs (Finite (List.Vector UInt16 8))
  refine (((Set.finite_singleton Addr.zero).union (Set.finite_range Addr.ip4)).union
    (Set.finite_range fun g => Addr.ip6 g [])).subset ?_
  intro a ha
  cases a with
  | zero => exact .inl (.inl rfl)
  | ip4 o => exact .inl (.inr ⟨o, rfl⟩)
  | ip6 g z =>
    have hz : z = [] := ha
    rw [hz]
    exact .inr ⟨g, rfl⟩

/-- The texts of the URL gate. -/
def urlReasons (U : Unicode) (M : Set GoString) : Set GoString :=
  {text | ∃ raw, ∃ mode ∈ M, ∃ e, parseAndValidateURL U raw mode = .error e ∧ e.text = text}

/-- What a gate says, which is nothing if it lets a request pass. -/
def gateText : Except GoError α → GoString
  | .error e => e.text
  | .ok _ => []

theorem urlReasons_bounded (U : Unicode) {M : ι → Set GoString} (hM : Bounded M) :
    Bounded fun i => urlReasons U (M i) := by
  apply (((Bounded.const shortURLs_finite).image2 hM
    fun raw mode => gateText (parseAndValidateURL U raw mode)).union
    (.const (Set.finite_singleton (lit "URL exceeds 2048 byte limit")))).mono
  rintro i _ ⟨raw, mode, hmode, e, he, rfl⟩
  by_cases hl : raw.length > maxURLLength
  · right
    rw [parseAndValidateURL, if_pos hl] at he
    cases he
    rfl
  · left
    refine ⟨raw, not_lt.1 hl, mode, hmode, ?_⟩
    simp only [he, gateText]

/-- The URLs that short texts stand for. -/
def parsedURLs : Set URL := {u | ∃ raw ∈ shortURLs, urlParse raw = .ok u}

theorem parsedURLs_finite : parsedURLs.Finite := by
  apply finite_results shortURLs_finite
  intro raw u u' hu hu'
  rw [hu] at hu'
  cases hu'
  rfl

/-- The texts of the host gate, when the resolver gives errors of `E` on the hosts it is asked. -/
def hostReasons (U : Unicode) (M E : Set GoString) : Set GoString :=
  {text | ∃ lookup, ∃ mode ∈ M, ∃ u ∈ parsedURLs, ∃ e,
    HostRefusal U lookup mode (trim u.hostname (lit "[]")) e ∧
    (∀ e', LooksUp U (trim u.hostname (lit "[]")) →
      lookup (trim u.hostname (lit "[]")) = .error e' → e' ∈ E) ∧ e.text = text}

theorem hostReasons_bounded (U : Unicode) {M E : ι → Set GoString} (hM : Bounded M)
    (hE : Bounded E) : Bounded fun i => hostReasons U (M i) (E i) := by
  let literal : Addr → GoString → GoString := fun a mode =>
    (errPolicyDenied (lit "destination IP " ++ a.string ++ lit " is disallowed for " ++ mode)).text
  let address : Addr → GoString := fun a =>
    (errPolicyDenied (lit "host resolves to disallowed IP " ++ a.string)).text
  have hA := parsedURLs_finite.image fun u => (parseAddr (trim u.hostname (lit "[]"))).getD .zero
  apply (((((Bounded.const hA).image2 hM literal).union
    (.const (finite_noZone.image address))).union hE).union
    (.const (Set.toFinite {(errPolicyDenied (lit "localhost is disallowed")).text,
      lit "host resolved to no addresses"}))).mono
  rintro i _ ⟨lookup, mode, hmode, u, hu, e, he, hlook, rfl⟩
  cases he with
  | @literal a ha hd =>
    refine .inl (.inl (.inl ⟨a, ⟨u, hu, ?_⟩, mode, hmode, rfl⟩))
    simp only [ha, Option.getD_some]
  | localhost => exact .inr (.inl rfl)
  | lookup hq he => exact .inl (.inr (hlook _ hq he))
  | empty => exact .inr (.inr rfl)
  | @address addrs a hq hr hf =>
    have hz := defaultResolver_zone hr (List.mem_of_find?_eq_some hf)
    exact .inl (.inl (.inr ⟨a, hz, rfl⟩))

theorem requestReasons_finite (U : Unicode) :
    {text | ∃ u ∈ parsedURLs, ∃ e, newRequest u.string = .error e ∧ e.text U = text}.Finite := by
  apply finite_results parsedURLs_finite
  rintro u _ _ ⟨e, he, rfl⟩ ⟨e', he', rfl⟩
  rw [he] at he'
  cases he'
  rfl

theorem reasonsOf_bounded (hM : Bounded fun cfg => modesOf cfg (T cfg))
    (hR : Bounded fun cfg => refusedMethods U cfg (T cfg))
    (hE : Bounded fun cfg => lookupErrors U cfg (T cfg)) :
    Bounded fun cfg => reasonsOf U cfg (T cfg) := by
  apply (((((hR.image fun _ m => lit "unsupported HTTP method: " ++ m).union
    (urlReasons_bounded U hM)).union (hostReasons_bounded U hM hE)).union
    (.const (requestReasons_finite U))).union
    ((hM.image fun _ m => lit "unsupported proxy mode: " ++ m).union
      (.const (Set.finite_singleton (lit "request body exceeds limit"))))).mono
  rintro cfg _ ⟨x, hx, r, status, e, hr, hp, rfl⟩
  have hmode : requestMode r.toNetworkRequest ∈ modesOf cfg (T cfg) := ⟨x, hx, r, hr, rfl⟩
  cases prepare_error hp with
  | method hn =>
    obtain ⟨hm, rfl⟩ := normalizeMethod_error hn
    exact .inl (.inl (.inl (.inl ⟨_, ⟨x, hx, r, hr, rfl, hm⟩, rfl⟩)))
  | url hn hu => exact .inl (.inl (.inl (.inr ⟨r.url, _, hmode, e, hu, rfl⟩)))
  | @host method parsed e hn hu he =>
    obtain ⟨hl, hu', _⟩ := parseAndValidateURL_eq_ok.1 hu
    rcases validateHost_eq U parsed.hostname (requestMode r.toNetworkRequest)
      (defaultResolver (x.net.lookup 0)) with ⟨hok, _⟩ | ⟨heq, hs⟩
    · rw [hok] at he
      cases he
    · rw [heq] at he
      refine .inl (.inl (.inr ⟨x.net.lookup 0, _, hmode, parsed, ⟨r.url, hl, hu'⟩, e,
        validateResolvedHost_error he, ?_, rfl⟩))
      intro e' hq he'
      exact ⟨x, hx, r, method, parsed, hr, hn, hu, hs, hq, he'⟩
  | body hb => exact .inr (.inr rfl)
  | @request parsed e hu hn =>
    obtain ⟨hl, hu', _⟩ := parseAndValidateURL_eq_ok.1 hu
    exact .inl (.inr ⟨parsed, ⟨r.url, hl, hu'⟩, e, hn, rfl⟩)
  | mode hc =>
    rw [clientForMode_error hc]
    exact .inr (.inl ⟨_, hmode, rfl⟩)

theorem follow_response (h : (follow U method check replies via u).2 = .ok resp) :
    UpstreamReply.response resp ∈ replies := by
  induction replies generalizing via u with
  | nil => cases h
  | cons reply replies ih =>
    cases reply with
    | failure e => cases h
    | response r =>
      cases h
      exact List.mem_cons_self
    | redirect location target =>
      cases target with
      | error e => cases h
      | ok v =>
        simp only [follow] at h
        cases hc : check v (via ++ [u]) with
        | error e =>
          rw [hc] at h
          cases h
        | ok x =>
          rw [hc] at h
          exact List.mem_cons_of_mem _ (ih h)

theorem Exchange.statusCode_mem (c : Client) (x : Exchange) (req : NetworkRequest) :
    (c.doRequest U x.net req).statusCode ∈ Set.Ico (-2 ^ 63 : Int) (2 ^ 63) := by
  have hconst : ∀ n ∈ [(400 : Int), 403, 502], n ∈ Set.Ico (-2 ^ 63 : Int) (2 ^ 63) := by
    decide
  cases hp : c.prepare U (x.net.lookup 0) req (requestMode req) with
  | error y =>
    obtain ⟨status, e⟩ := y
    rw [doRequest_of_prepare_error hp]
    rcases prepare_status hp with rfl | rfl
    · exact hconst 400 (by decide)
    · exact hconst 403 (by decide)
  | ok p =>
    rw [Client.doRequest, Client.attempt, hp]
    simp only
    cases hf : (follow U p.method (p.client.checkRedirect U x.net) x.net.replies [] p.url).2 with
    | error e => exact hconst 502 (by decide)
    | ok resp =>
      simp only
      rcases c.buildResponse_cases U resp (requestMode req) with ⟨e, hr⟩ | ⟨out, hr, _, hs⟩
      · rw [hr]
        exact hconst 502 (by decide)
      · rw [hr]
        simp only [hs]
        exact x.status resp (follow_response hf)

theorem mem_denialTuples {c : Client}
    (h : p ∈ denialTuples (requestMode req) (c.doRequest U net req)) :
    ∃ status e, c.prepare U (net.lookup 0) req (requestMode req) = .error (status, e) ∧
      p = (.policyDenialsTotal, [requestMode req, e.text]) := by
  rw [denialTuples] at h
  cases he : (c.doRequest U net req).error with
  | none =>
    rw [he] at h
    cases h
  | some reason =>
    simp only [he] at h
    split at h
    · rename_i hs
      obtain ⟨status, e, hp, rfl⟩ := (denies_iff U c net req).1 ⟨he, hs⟩
      exact ⟨status, e, hp, List.mem_singleton.1 h⟩
    · cases h

theorem tuplesOf_bounded (hM : Bounded fun cfg => modesOf cfg (T cfg))
    (hR : Bounded fun cfg => reasonsOf U cfg (T cfg)) :
    Bounded fun cfg => tuplesOf U cfg (T cfg) := by
  let denial : GoString → GoString → Tuple := fun m t => (.policyDenialsTotal, [m, t])
  let total : GoString → Int → Tuple := fun m s => (.requestsTotal, [m, statusClass s])
  let plain : Series → GoString → Tuple := fun series m => (series, [m])
  have hS : ({.requestDuration, .requestBytesTotal, .responseBytesTotal} : Set Series).Finite :=
    Set.toFinite _
  apply (((hM.image2 hR denial).union
    (hM.image2 (.const (Set.finite_Ico (-2 ^ 63 : Int) (2 ^ 63))) total)).union
    ((Bounded.const hS).image2 hM plain)).mono
  rintro cfg p ⟨x, hx, hp⟩
  rw [passed] at hp
  cases hr : x.input cfg with
  | error e =>
    rw [hr] at hp
    cases hp
  | ok r =>
    have hmode : requestMode r.toNetworkRequest ∈ modesOf cfg (T cfg) := ⟨x, hx, r, hr, rfl⟩
    rw [hr, labelTuples] at hp
    have hden : p ∈ denialTuples (requestMode r.toNetworkRequest)
          ((newClient cfg).doRequest U x.net r.toNetworkRequest) ∨
        p ∈ requestTuples (requestMode r.toNetworkRequest)
          ((newClient cfg).doRequest U x.net r.toNetworkRequest) := by
      split at hp
      · exact List.mem_append.1 hp
      · exact .inl hp
    rcases hden with hp | hp
    · obtain ⟨status, e, he, rfl⟩ := mem_denialTuples hp
      exact .inl (.inl ⟨_, hmode, e.text, ⟨x, hx, r, status, e, hr, he, rfl⟩, rfl⟩)
    · simp only [requestTuples, List.mem_cons, List.not_mem_nil, or_false] at hp
      rcases hp with rfl | rfl | rfl | rfl
      · exact .inl (.inr ⟨_, hmode, _, x.statusCode_mem _ _, rfl⟩)
      · exact .inr ⟨.requestDuration, by simp, _, hmode, rfl⟩
      · exact .inr ⟨.requestBytesTotal, by simp, _, hmode, rfl⟩
      · exact .inr ⟨.responseBytesTotal, by simp, _, hmode, rfl⟩

/-- Whatever the limit, it is an `int64`, so that the decoder accepts finitely many requests. -/
theorem decoded_finite : {req | ∃ (cfg : Config) (body : Body),
    cfg.decodeRequest body = .ok req}.Finite := by
  have hfin := finite_results (List.finite_length_le UInt8 (2 ^ 63))
    (R := fun data req => decodeJSON data = .ok req) (by
      intro data req req' h h'
      rw [h] at h'
      cases h'
      rfl)
  refine hfin.subset ?_
  rintro req ⟨cfg, body, h⟩
  obtain ⟨data, hlen, hdata⟩ := Config.decodeRequest_eq_ok h
  have hlt := Int.bmod_lt (x := cfg.maxRequestBodyBytes + 4096) (m := 2 ^ 64) (by decide)
  refine ⟨data, ?_, hdata⟩
  change data.length ≤ 2 ^ 63
  omega

theorem modesOf_bounded (T : Config → Set Exchange) : Bounded fun cfg => modesOf cfg (T cfg) := by
  apply (Bounded.const (decoded_finite.image fun req => requestMode req.toNetworkRequest)).mono
  rintro cfg _ ⟨x, _, r, hr, rfl⟩
  obtain ⟨req, hreq, he⟩ := toDecoded_eq_ok hr
  exact ⟨req, ⟨cfg, x.body, hreq⟩, congrArg requestMode he⟩

theorem refusedMethods_bounded (U : Unicode) (T : Config → Set Exchange) :
    Bounded fun cfg => refusedMethods U cfg (T cfg) := by
  apply (Bounded.const (decoded_finite.image fun req => upperMethod U req.method)).mono
  rintro cfg method ⟨x, _, r, hr, hmethod, _⟩
  obtain ⟨req, hreq, he⟩ := toDecoded_eq_ok hr
  refine ⟨req, ⟨cfg, x.body, hreq⟩, ?_⟩
  rw [← hmethod, ← he]

/-- The label tuples of a class of traffic are bounded in number exactly when the errors of its
resolver are: the modes and the methods have to fit into a body within the limit. -/
theorem boundedLabels_iff (U : Unicode) (T : Config → Set Exchange) :
    BoundedLabels U T ↔ Bounded fun cfg => lookupErrors U cfg (T cfg) := by
  rw [BoundedLabels, card_bounded_iff]
  constructor
  · intro h
    exact (h.image _).mono fun _ => lookupErrors_subset
  · intro hE
    exact tuplesOf_bounded (modesOf_bounded T)
      (reasonsOf_bounded (modesOf_bounded T) (refusedMethods_bounded U T) hE)

end Bounds

section Unbounded

/-- A request with a body of JSON, under one resolver and with no upstream. -/
def Exchange.ofRequest (lookup : LookupIP) (req : WireRequest) : Exchange where
  net := ⟨fun _ => lookup, []⟩
  body := ⟨req.marshal, none⟩
  jsonError := fun _ => []
  status := fun _ hr => absurd hr List.not_mem_nil

theorem Exchange.input_ofRequest {cfg : Config} (lookup : LookupIP)
    (h : LimitsAgree cfg req) : ∃ r, (ofRequest lookup req).input cfg = .ok r ∧
      r.toNetworkRequest = req.toNetworkRequest :=
  exists_toDecoded _ _ h

theorem valid_of_strings (hurl : ValidUTF8 url) (hmethod : ValidUTF8 method)
    (hmode : ValidUTF8 mode) :
    ({ zeroRequest with url := url, method := method, proxyMode := mode } : WireRequest).Valid where
  requestID := IsASCII.nil.validUTF8
  url := hurl
  method := hmethod
  headers := by
    intro k s hk
    change (∅ : GoMap GoString GoString)[k]? = some s at hk
    rw [GoMap.get_empty] at hk
    cases hk
  proxyMode := hmode
  body := by
    intro b hb
    cases hb

/-- A request in a mode of `n + 1` letters. -/
def strangeMode (n : Nat) : WireRequest :=
  { zeroRequest with proxyMode := List.replicate (n + 1) (ch 'x') }

theorem strangeMode_mode (n : Nat) :
    List.replicate (n + 1) (ch 'x') = utf8Encode (List.replicate (n + 1) 'x') :=
  (utf8Encode_replicate (by decide) _).symm

theorem strangeMode_valid (n : Nat) : (strangeMode n).Valid := by
  apply valid_of_strings IsASCII.nil.validUTF8 IsASCII.nil.validUTF8
  rw [strangeMode_mode]
  exact validUTF8_utf8Encode _

theorem length_strangeMode (n : Nat) : (strangeMode n).marshal.length = n + 59 := by
  have hlen : escapedLength (List.replicate (n + 1) (ch 'x')) = n + 1 := by
    rw [strangeMode_mode, escapedLength, runes_utf8Encode, List.map_replicate, List.sum_replicate]
    exact Nat.mul_one _
  have hmode : (strangeMode n).cost .proxyMode = n + 17 := by
    have happ := length_appendString (strangeMode_valid n).proxyMode
    have htag : (appendString (lit Field.proxyMode.tag)).length = 12 := by decide
    rw [WireRequest.cost]
    simp only [WireRequest.value, Option.map_some, Option.getD_some, Value.encode, htag, happ]
    change 12 + (escapedLength (List.replicate (n + 1) (ch 'x')) + 2) + 2 = n + 17
    omega
  rw [length_marshal]
  have hrest : (strangeMode n).cost .requestID = 0 ∧ (strangeMode n).cost .url = 9 ∧
      (strangeMode n).cost .method = 12 ∧ (strangeMode n).cost .headers = 0 ∧
      (strangeMode n).cost .body = 0 ∧ (strangeMode n).cost .timeoutSeconds = 20 :=
    ⟨rfl, rfl, rfl, rfl, rfl, show zeroRequest.cost .timeoutSeconds = 20 by decide⟩
  obtain ⟨h₁, h₂, h₃, h₄, h₅, h₆⟩ := hrest
  simp only [Field.all, List.map_cons, List.map_nil, List.sum_cons, List.sum_nil, hmode, h₁, h₂, h₃,
    h₄, h₅, h₆]
  omega

theorem strangeMode_passed (U : Unicode) {cfg : Config} {n : Nat}
    (hmax : cfg.maxRequestBodyBytes < 2 ^ 62) (hn : (n : Int) < cfg.maxRequestBodyBytes) :
    ∃ p ∈ passed U cfg (.ofRequest unknownHost (strangeMode n)),
      p.2.headD [] = List.replicate (n + 1) (ch 'x') := by
  have hlen := length_strangeMode n
  have hagree : LimitsAgree cfg (strangeMode n) :=
    (limitsAgree_iff_length hmax).2 ⟨strangeMode_valid n, by omega⟩
  obtain ⟨r, hr, he⟩ := Exchange.input_ofRequest unknownHost hagree
  obtain ⟨p, hp, hhead⟩ := exists_passed_mode (U := U) hr
  refine ⟨p, hp, ?_⟩
  rw [List.headD_eq_head?_getD, hhead, he]
  rfl

theorem exists_labels (U : Unicode) {cfg : Config} (hmax : cfg.maxRequestBodyBytes < 2 ^ 62) :
    ∃ xs : List Exchange, (∀ x ∈ xs, x.net = ⟨fun _ => unknownHost, []⟩) ∧
      cfg.maxRequestBodyBytes ≤ (xs.flatMap (passed U cfg)).toFinset.card := by
  refine ⟨(List.range cfg.maxRequestBodyBytes.toNat).map fun n =>
    .ofRequest unknownHost (strangeMode n), ?_, ?_⟩
  · intro x hx
    obtain ⟨n, _, rfl⟩ := List.mem_map.1 hx
    rfl
  · have hinj : Function.Injective fun n => List.replicate (n + 1) (ch 'x') := by
      intro n n' he
      have hlen := congrArg List.length he
      simpa using hlen
    have hsub : (Finset.range cfg.maxRequestBodyBytes.toNat).image
        (fun n => List.replicate (n + 1) (ch 'x')) ⊆
        (((List.range cfg.maxRequestBodyBytes.toNat).map fun n =>
          Exchange.ofRequest unknownHost (strangeMode n)).flatMap
            (passed U cfg)).toFinset.image fun p => p.2.headD [] := by
      intro mode hmode
      obtain ⟨n, hn, rfl⟩ := Finset.mem_image.1 hmode
      rw [Finset.mem_range] at hn
      obtain ⟨p, hp, hhead⟩ := strangeMode_passed U hmax (by omega : (n : Int) < _)
      refine Finset.mem_image.2 ⟨p, List.mem_toFinset.2 (List.mem_flatMap.2 ⟨_, ?_, hp⟩), hhead⟩
      exact List.mem_map.2 ⟨n, List.mem_range.2 hn, rfl⟩
    have hle := (Finset.card_le_card hsub).trans Finset.card_image_le
    rw [Finset.card_image_of_injective _ hinj, Finset.card_range] at hle
    omega

/-- A request for a host that the resolver is asked for, and fails on with ever longer texts. -/
def lostHost : WireRequest :=
  { zeroRequest with url := lit "http://a.example/", method := lit "GET" }

def failing (n : Nat) : Exchange :=
  .ofRequest (fun _ => .error (List.replicate n (ch 'x'))) lostHost

theorem mem_lookupErrors (n : Nat) : List.replicate n (ch 'x') ∈
    lookupErrors asciiTables defaultConfig (Set.range failing) := by
  have hagree : LimitsAgree defaultConfig lostHost :=
    (limitsAgree_iff_length (by decide)).2
      ⟨valid_of_strings (by decide) (by decide) (by decide),
        by decide⟩
  obtain ⟨r, hr, he⟩ := Exchange.input_ofRequest (fun _ => .error (List.replicate n (ch 'x')))
    hagree
  have hhost : (parseAndValidateURL asciiTables lostHost.url proxyModeDirect).toOption.map
      URL.hostname = some (lit "a.example") := by
    decide
  obtain ⟨u, hu, hname⟩ := Option.map_eq_some_iff.1 hhost
  cases hp : parseAndValidateURL asciiTables lostHost.url proxyModeDirect with
  | error e =>
    rw [hp] at hu
    cases hu
  | ok parsed =>
    rw [hp] at hu
    cases hu
    refine ⟨failing n, ⟨n, rfl⟩, r, lit "GET", u, hr, ?_⟩
    rw [he, hname]
    refine ⟨by decide, hp, ?_, ⟨by decide, by decide, by decide⟩,
      rfl⟩
    rintro (⟨h, _⟩ | ⟨h, _⟩)
    · exact absurd h (by decide)
    · exact absurd h (by decide)

/-- Each error of the resolver is a label of its own, without end; and with one resolver the limit
on the body is all that bounds the labels that callers make up. -/
theorem unbounded_labels :
    (¬BoundedLabels asciiTables fun cfg => {x | x ∈ Set.range failing ∧ cfg = defaultConfig}) ∧
    ∀ cfg : Config, cfg.maxRequestBodyBytes < 2 ^ 62 → ∃ xs : List Exchange,
      (∀ x ∈ xs, x.net = ⟨fun _ => unknownHost, []⟩) ∧
        cfg.maxRequestBodyBytes ≤ (xs.flatMap (passed asciiTables cfg)).toFinset.card := by
  refine ⟨?_, fun cfg => exists_labels asciiTables⟩
  rw [BoundedLabels, card_bounded_iff]
  intro h
  have hfin := (h.finite defaultConfig).image fun p => p.2.getD 1 []
  have hinj : Function.Injective fun n => List.replicate n (ch 'x') := by
    intro n n' he
    have hlen := congrArg List.length he
    simpa using hlen
  refine Set.infinite_of_injective_forall_mem hinj (fun n => ?_) hfin
  obtain ⟨x, hx, hrest⟩ := mem_lookupErrors n
  exact lookupErrors_subset ⟨x, ⟨hx, rfl⟩, hrest⟩

end Unbounded

end HyruleProxy
