import HyruleProxy.Dialer
import HyruleProxy.Gates

namespace HyruleProxy
set_option autoImplicit true

/-- The guarded dialer under the client of a mode; the client of the I2P mode has none. -/
def dialerForMode (mode : GoString) : Option Dialer :=
  if mode = proxyModeDirect then some (.guarded proxyModeDirect)
  else if mode = proxyModeTor then some (.socks proxyModeTor)
  else if mode = proxyModeYggdrasil then some (.guarded proxyModeYggdrasil)
  else none

section Dot

variable (U : Unicode)

theorem lit_dot : lit "." = [46] := by decide

theorem toLower_dot (s : GoString) : toLower U (s ++ lit ".") = toLower U s ++ lit "." := by
  rw [lit_dot, toLower_snoc U (by decide)]
  rfl

theorem trimSuffix_dot (s : GoString) : trimSuffix (s ++ lit ".") (lit ".") = s := by
  have hs : hasSuffix (s ++ lit ".") (lit ".") = true :=
    List.isSuffixOf_iff_suffix.2 (List.suffix_append s _)
  rw [trimSuffix, if_pos hs]
  simp [lit_dot]

theorem canonicalHost_dot (s : GoString) : canonicalHost U (s ++ lit ".") = toLower U s := by
  rw [canonicalHost, trimSuffix_dot]

theorem canonicalHost_cases (host : GoString) :
    (∃ h, host = h ++ lit ".") ∨ canonicalHost U host = toLower U host := by
  rw [canonicalHost, trimSuffix]
  split
  · rename_i h
    obtain ⟨t, ht⟩ := List.isSuffixOf_iff_suffix.1 h
    exact .inl ⟨t, ht.symm⟩
  · exact .inr rfl

theorem not_hasSuffix_dot {suffix : GoString} (hne : suffix ≠ [])
    (hl : suffix.getLast? ≠ some 46) (s : GoString) :
    hasSuffix (toLower U (s ++ lit ".")) suffix = false := by
  rw [Bool.eq_false_iff]
  intro h
  obtain ⟨t, ht⟩ := List.isSuffixOf_iff_suffix.1 h
  have hlast := congrArg List.getLast? ht
  rw [toLower_dot, lit_dot, List.getLast?_append_of_ne_nil t hne, List.getLast?_concat] at hlast
  exact hl hlast

theorem not_onion_dot (s : GoString) :
    hasSuffix (toLower U (s ++ lit ".")) (lit ".onion") = false :=
  not_hasSuffix_dot U (by decide) (by decide) s

theorem not_i2p_dot (s : GoString) :
    hasSuffix (toLower U (s ++ lit ".")) (lit ".i2p") = false :=
  not_hasSuffix_dot U (by decide) (by decide) s

theorem trim_dot (s : GoString) : ∃ t, trim (s ++ lit ".") (lit "[]") = t ++ lit "." := by
  have hb : (46 : UInt8) ∉ lit "[]" := by decide
  refine ⟨s.dropWhile (· ∈ lit "[]"), ?_⟩
  have hd : (s ++ lit ".").dropWhile (· ∈ lit "[]") = s.dropWhile (· ∈ lit "[]") ++ lit "." := by
    rw [lit_dot, List.dropWhile_append, List.dropWhile_cons_of_neg (by simpa using hb)]
    split
    · rename_i he
      rw [List.isEmpty_iff.1 he]
      rfl
    · rfl
  rw [trim, hd, lit_dot, List.rdropWhile_concat_neg _ _ _ (by simpa using hb)]

end Dot

/-- The names of other networks: under `.onion` or `.i2p`, up to the root dot. -/
def altName (U : Unicode) (host : GoString) : Bool :=
  hasSuffix (canonicalHost U host) (lit ".onion") || hasSuffix (canonicalHost U host) (lit ".i2p")

/-- A name that the mode routes to its own network, written with the root dot, which is neither
an address nor the local host. -/
def Dotted (U : Unicode) (mode host : GoString) : Prop :=
  (∃ h, host = h ++ lit "." ∧ shortCut U mode h = true) ∧
    parseAddr (trim host (lit "[]")) = none ∧ isLocalhost U (trim host (lit "[]")) = false

section AltNames

variable {U : Unicode} {mode host : GoString} {resolver : Resolver}

theorem shortCut_dot (h : GoString) : shortCut U mode (h ++ lit ".") = false := by
  rw [shortCut, not_onion_dot, not_i2p_dot]
  simp

theorem shortCut_of_nameRule (hm : nameRule mode (toLower U host) = true)
    (ha : hasSuffix (toLower U host) (lit ".onion") = true ∨
      hasSuffix (toLower U host) (lit ".i2p") = true) : shortCut U mode host = true := by
  rw [nameRule] at hm
  rw [shortCut]
  split at hm
  · rw [Bool.and_eq_true, Bool.not_eq_true', Bool.not_eq_true'] at hm
    rcases ha with ha | ha
    · rw [hm.1] at ha
      cases ha
    · rw [hm.2] at ha
      cases ha
  · split at hm
    · rename_i ht
      rw [Bool.not_eq_true'] at hm
      rcases ha with ha | ha
      · simp [ht, ha]
      · rw [hm] at ha
        cases ha
    · split at hm
      · rename_i hi
        simp [hi, hm]
      · cases hm

theorem validateResolvedHostQ_asked :
    (validateResolvedHostQ U host mode).asked resolver = [] ↔
      ¬ (parseAddr (trim host (lit "[]")) = none ∧ isLocalhost U (trim host (lit "[]")) = false ∧
        hasSuffix (toLower U (trim host (lit "[]"))) (lit ".onion") = false ∧
        hasSuffix (toLower U (trim host (lit "[]"))) (lit ".i2p") = false) := by
  rw [validateResolvedHostQ]
  cases parseAddr (trim host (lit "[]")) with
  | some ip =>
    refine iff_of_true ?_ (by simp)
    simp only
    split <;> rfl
  | none =>
    cases isLocalhost U (trim host (lit "[]")) with
    | true => simp [Asking.asked]
    | false =>
      cases hasSuffix (toLower U (trim host (lit "[]"))) (lit ".onion") with
      | true => simp [Asking.asked]
      | false =>
        cases hasSuffix (toLower U (trim host (lit "[]"))) (lit ".i2p") with
        | true => simp [Asking.asked]
        | false => simp [Asking.asked]

/-- A name of another network is looked up only when it is written with the root dot. -/
theorem validateResolvedHostQ_altName (ha : altName U host = true)
    (hm : nameRule mode (canonicalHost U host) = true) :
    (validateResolvedHostQ U host mode).asked resolver = [] ↔ ¬ Dotted U mode host := by
  rw [validateResolvedHostQ_asked, not_iff_not]
  rw [altName, Bool.or_eq_true] at ha
  rcases canonicalHost_cases U host with ⟨h, rfl⟩ | hc
  · rw [canonicalHost_dot] at ha hm
    obtain ⟨t, ht⟩ := trim_dot h
    have hsuff := And.intro (not_onion_dot U t) (not_i2p_dot U t)
    rw [← ht] at hsuff
    constructor
    · rintro ⟨hp, hl, _⟩
      exact ⟨⟨h, rfl, shortCut_of_nameRule hm ha⟩, hp, hl⟩
    · rintro ⟨_, hp, hl⟩
      exact ⟨hp, hl, hsuff⟩
  · rw [hc] at ha
    refine iff_of_false ?_ ?_
    · rintro ⟨_, _, ho, hi⟩
      rcases ha with ha | ha
      · rw [hasSuffix_trim_onion U ha] at ho
        cases ho
      · rw [hasSuffix_trim_i2p U ha] at hi
        cases hi
    · rintro ⟨⟨h, rfl, _⟩, _⟩
      rw [not_onion_dot, not_i2p_dot] at ha
      rcases ha with ha | ha <;> cases ha

theorem validateHostQ_altName (ha : altName U host = true)
    (hm : nameRule mode (canonicalHost U host) = true) :
    (validateHostQ U host mode).asked resolver = [] ↔ ¬ Dotted U mode host := by
  by_cases hs : shortCut U mode host = true
  · refine iff_of_true ?_ ?_
    · rw [shortCut, Bool.or_eq_true, Bool.and_eq_true, Bool.and_eq_true, decide_eq_true_eq,
        decide_eq_true_eq] at hs
      rw [validateHostQ]
      split
      · rfl
      · rename_i ht
        rw [if_pos (hs.resolve_left ht)]
        rfl
    · rintro ⟨⟨h, rfl, _⟩, _⟩
      rw [shortCut_dot] at hs
      cases hs
  · rw [shortCut, Bool.or_eq_true, Bool.and_eq_true, Bool.and_eq_true, decide_eq_true_eq,
      decide_eq_true_eq, not_or] at hs
    rw [validateHostQ, if_neg hs.1, if_neg hs.2]
    exact validateResolvedHostQ_altName ha hm

/-- The name rule and `validateHost`: what the first gate asks of the host of a URL. -/
def hostGate (U : Unicode) (mode : GoString) (resolver : Resolver) (host : GoString) :
    Except GoError Unit :=
  match modeDenial mode (canonicalHost U host) with
  | some e => .error e
  | none => validateHost U host mode resolver

/-- What `ParseAndValidateURL` asks of a text and the URL in it, apart from the name. -/
structure WellFormed (raw : GoString) (u : URL) : Prop where
  short : raw.length ≤ maxURLLength
  parses : urlParse raw = .ok u
  scheme : u.scheme = lit "http" ∨ u.scheme = lit "https"
  user : u.user = none

theorem WellFormed.initialGate_eq (h : WellFormed raw u) (hh : u.hostname ≠ []) :
    initialGate U raw mode resolver = hostGate U mode resolver u.hostname := by
  have hs : ¬ (u.scheme ≠ lit "http" ∧ u.scheme ≠ lit "https") := not_and_or.2 (by
    rw [not_not, not_not]
    exact h.scheme)
  have hu : ¬ u.user.isSome = true := by simp [h.user]
  rw [initialGate, initialGateQ, hostGate, parseAndValidateURL, if_neg (Nat.not_lt.2 h.short),
    h.parses]
  simp only
  rw [if_neg hs, if_neg hh, if_neg hu]
  cases modeDenial mode (canonicalHost U u.hostname) with
  | some e => rfl
  | none => rfl

/-- `ValidateResolvedHost` lets the host pass: an address that the mode allows, or a name whose
addresses the mode allows. -/
def Admitted (U : Unicode) (mode : GoString) (resolver : Resolver) (host : GoString) : Prop :=
  match parseAddr (trim host (lit "[]")) with
  | some ip => ipAllowedForMode ip mode = true
  | none => isLocalhost U (trim host (lit "[]")) = false ∧
      ∃ addrs, resolver (trim host (lit "[]")) = .ok addrs ∧ addrs ≠ [] ∧
        ∀ a ∈ addrs, ipAllowedForMode a mode = true

theorem validateResolvedHost_dot (h : GoString) :
    validateResolvedHost U (h ++ lit ".") mode resolver = .ok () ↔
      Admitted U mode resolver (h ++ lit ".") := by
  obtain ⟨t, ht⟩ := trim_dot h
  have ho := not_onion_dot U t
  have hi := not_i2p_dot U t
  rw [← ht] at ho hi
  rw [validateResolvedHost, validateResolvedHostQ, Admitted, ho, hi]
  cases parseAddr (trim (h ++ lit ".") (lit "[]")) with
  | some ip =>
    simp only
    cases ipAllowedForMode ip mode <;> simp
  | none =>
    simp only
    cases isLocalhost U (trim (h ++ lit ".") (lit "[]")) with
    | true => simp
    | false =>
      simp only [Bool.false_eq_true, if_false, Bool.or_self, Asking.run_ask]
      cases resolver (trim (h ++ lit ".") (lit "[]")) with
      | error e => simp
      | ok addrs =>
        by_cases he : addrs = []
        · simp [he]
        · cases hf : addrs.find? fun addr => !ipAllowedForMode addr mode with
          | some a =>
            have hmem := List.mem_of_find?_eq_some hf
            have hnot := List.find?_some hf
            refine iff_of_false (by simp [he, hf]) ?_
            rintro ⟨_, addrs', heq, _, hall⟩
            cases heq
            rw [hall a hmem] at hnot
            cases hnot
          | none =>
            refine iff_of_true (by simp [he, hf]) ⟨trivial, addrs, rfl, he, ?_⟩
            intro a ha
            have hnot := List.find?_eq_none.1 hf a ha
            simpa using hnot

theorem not_i2p_of_onion {s : GoString} (h : hasSuffix s (lit ".onion") = true) :
    hasSuffix s (lit ".i2p") = false := by
  rw [Bool.eq_false_iff]
  intro h'
  obtain ⟨t, ht⟩ := List.isSuffixOf_iff_suffix.1 h
  obtain ⟨t', ht'⟩ := List.isSuffixOf_iff_suffix.1 h'
  have hl := congrArg List.getLast? (ht.trans ht'.symm)
  have ho : lit ".onion" ≠ [] := by decide
  have hi : lit ".i2p" ≠ [] := by decide
  rw [List.getLast?_append_of_ne_nil t ho, List.getLast?_append_of_ne_nil t' hi] at hl
  revert hl
  decide

theorem nameRule_of_shortCut (hs : shortCut U mode host = true) :
    nameRule mode (toLower U host) = true := by
  rw [shortCut, Bool.or_eq_true, Bool.and_eq_true, Bool.and_eq_true, decide_eq_true_eq,
    decide_eq_true_eq] at hs
  rw [← modeDenial_eq_none]
  rcases hs with ⟨rfl, h⟩ | ⟨rfl, h⟩
  · have hd : proxyModeTor ≠ proxyModeDirect := by decide
    rw [modeDenial, if_neg hd, if_pos rfl, not_i2p_of_onion h]
    rfl
  · have hd : proxyModeI2P ≠ proxyModeDirect := by decide
    have ht : proxyModeI2P ≠ proxyModeTor := by decide
    rw [modeDenial, if_neg hd, if_neg ht, if_pos rfl, if_pos h]

theorem hostGate_dot (hs : shortCut U mode host = true) :
    (hostGate U mode resolver host = .ok () ↔
      hostGate U mode resolver (host ++ lit ".") = .ok ()) ↔
        Admitted U mode resolver (host ++ lit ".") := by
  have hc : canonicalHost U host = toLower U host := by
    rcases canonicalHost_cases U host with ⟨h, rfl⟩ | hc
    · rw [shortCut_dot] at hs
      cases hs
    · exact hc
  have hm := modeDenial_eq_none.2 (nameRule_of_shortCut hs)
  rw [hostGate, hostGate, hc, canonicalHost_dot, hm]
  simp only
  rw [validateHost_eq_shortCut, if_pos hs, validateHost_eq_shortCut, shortCut_dot]
  simp only [Bool.false_eq_true, if_false, true_iff]
  exact validateResolvedHost_dot host

/-- The guarded dialers do not look up a name of another network that its mode lets pass. -/
theorem dialContextQ_altName (ha : altName U host = true)
    (hm : nameRule mode (canonicalHost U host) = true) (hd : dialerForMode mode = some d)
    (hs : splitHostPort address = .ok (host, port)) :
    (d.dialContextQ U address).asked resolver = [] := by
  rw [altName, Bool.or_eq_true] at ha
  have hs' : shortCut U mode (trimSuffix host (lit ".")) = true := shortCut_of_nameRule hm ha
  rw [shortCut, Bool.or_eq_true, Bool.and_eq_true, Bool.and_eq_true, decide_eq_true_eq,
    decide_eq_true_eq] at hs'
  rcases hs' with ⟨rfl, ho⟩ | ⟨rfl, _⟩
  · have hd' : dialerForMode proxyModeTor = some (.socks proxyModeTor) := by decide
    rw [hd'] at hd
    cases hd
    have hpass : (Dialer.socks proxyModeTor).passesOn U host = true := by
      simpa [Dialer.passesOn] using ho
    rw [Dialer.dialContextQ, hs]
    simp only
    rw [if_pos hpass]
    rfl
  · have hd' : dialerForMode proxyModeI2P = none := by decide
    rw [hd'] at hd
    cases hd

end AltNames

/-- What should hold of a URL `u`, with the text `raw`, whose host is a name of another network: no
step that handles it looks up a name, and the root dot does not change the verdict on it. -/
structure Secluded (U : Unicode) (mode : GoString) (resolver : Resolver) (maxRedirects : Int)
    (via : List URL) (raw : GoString) (u : URL) : Prop where
  initial : (initialGateQ U raw mode).asked resolver = []
  redirect : (redirectPolicyQ U mode maxRedirects u via).asked resolver = []
  dial : Meets U mode u → ∀ d address port, dialerForMode mode = some d →
    splitHostPort address = .ok (u.hostname, port) → (d.dialContextQ U address).asked resolver = []
  verdict : shortCut U mode u.hostname = true → WellFormed raw u → ∀ raw' u', WellFormed raw' u' →
    u'.hostname = u.hostname ++ lit "." →
    (initialGate U raw mode resolver = .ok () ↔ initialGate U raw' mode resolver = .ok ())

/-- The URL passes the gates before the lookup and has the root dot, or a URL with the root dot
after the name is not admitted. -/
inductive Exposed (U : Unicode) (mode : GoString) (resolver : Resolver) (maxRedirects : Int)
    (via : List URL) (raw : GoString) (u : URL) : Prop where
  | initial (v : URL) (passes : parseAndValidateURL U raw mode = .ok v)
      (dotted : Dotted U mode u.hostname) : Exposed U mode resolver maxRedirects via raw u
  | redirect (hv : (via.length : Int) ≤ maxRedirects) (v : URL)
      (passes : parseAndValidateURL U u.string mode = .ok v)
      (dotted : Dotted U mode u.hostname) : Exposed U mode resolver maxRedirects via raw u
  | verdict (short : shortCut U mode u.hostname = true) (formed : WellFormed raw u)
      (raw' : GoString) (u' : URL) (formed' : WellFormed raw' u')
      (dot : u'.hostname = u.hostname ++ lit ".")
      (refused : ¬ Admitted U mode resolver u'.hostname) :
      Exposed U mode resolver maxRedirects via raw u

section Names

variable {U : Unicode} {mode : GoString} {resolver : Resolver} {u : URL}

theorem initialGateQ_altName (hp : urlParse raw = .ok u) (ha : altName U u.hostname = true) :
    (initialGateQ U raw mode).asked resolver = [] ↔
      ∀ v, parseAndValidateURL U raw mode = .ok v → ¬ Dotted U mode u.hostname := by
  rw [initialGateQ]
  cases hv : parseAndValidateURL U raw mode with
  | error e =>
    refine iff_of_true rfl ?_
    intro v hv
    cases hv
  | ok v =>
    obtain ⟨_, hp', hm⟩ := parseAndValidateURL_eq_ok.1 hv
    rw [hp] at hp'
    cases hp'
    simp only
    rw [validateHostQ_altName ha hm.name]
    constructor
    · intro h _ _
      exact h
    · intro h
      exact h u rfl

theorem hostname_ne_nil (ha : altName U host = true) : host ≠ [] := by
  rintro rfl
  have hnil : canonicalHost U [] = [] := rfl
  rw [altName, hnil] at ha
  revert ha
  decide

theorem redirectPolicyQ_altName (hp : urlParse raw = .ok u) (ha : altName U u.hostname = true) :
    (redirectPolicyQ U mode maxRedirects u via).asked resolver = [] ↔
      ((via.length : Int) ≤ maxRedirects →
        ∀ v, parseAndValidateURL U u.string mode = .ok v → ¬ Dotted U mode u.hostname) := by
  rw [redirectPolicyQ]
  by_cases hl : (via.length : Int) > maxRedirects
  · rw [if_pos hl]
    refine iff_of_true rfl ?_
    intro hle
    exact absurd hl (Int.not_lt.2 hle)
  · rw [if_neg hl]
    have hle := Int.not_lt.1 hl
    cases hv : parseAndValidateURL U u.string mode with
    | error e =>
      refine iff_of_true rfl ?_
      intro _ v hv
      cases hv
    | ok v =>
      have hhost := URL.host_ne_nil (hostname_ne_nil ha)
      have hn := hostname_of_roundTrips (urlParse_roundTrips hp hhost) hv
      obtain ⟨_, _, hm⟩ := parseAndValidateURL_eq_ok.1 hv
      have hname := hm.name
      rw [hn] at hname
      simp only
      rw [validateResolvedHostQ_altName ha hname]
      constructor
      · intro h _ _ _
        exact h
      · intro h
        exact h hle v rfl

theorem initialGate_dot (short : shortCut U mode u.hostname = true) (hh : u.hostname ≠ [])
    (hw : WellFormed raw u) (hw' : WellFormed raw' u') (dot : u'.hostname = u.hostname ++ lit ".") :
    (initialGate U raw mode resolver = .ok () ↔ initialGate U raw' mode resolver = .ok ()) ↔
      Admitted U mode resolver u'.hostname := by
  have hh' : u'.hostname ≠ [] := by
    rw [dot]
    exact List.append_ne_nil_of_left_ne_nil hh _
  rw [hw.initialGate_eq hh, hw'.initialGate_eq hh', dot]
  exact hostGate_dot short

/-- The names of other networks stay away from the DNS exactly when they are not exposed. -/
theorem secluded_iff_not_exposed (hp : urlParse raw = .ok u) (ha : altName U u.hostname = true)
    (mode : GoString) (resolver : Resolver) (maxRedirects : Int) (via : List URL) :
    Secluded U mode resolver maxRedirects via raw u ↔
      ¬ Exposed U mode resolver maxRedirects via raw u := by
  constructor
  · intro h he
    cases he with
    | initial v passes dotted => exact (initialGateQ_altName hp ha).1 h.initial v passes dotted
    | redirect hv v passes dotted =>
      exact (redirectPolicyQ_altName hp ha).1 h.redirect hv v passes dotted
    | verdict short formed raw' u' formed' dot refused =>
      have hsame := h.verdict short formed raw' u' formed' dot
      exact refused ((initialGate_dot short (hostname_ne_nil ha) formed formed' dot).1 hsame)
  · intro hn
    constructor
    · apply (initialGateQ_altName hp ha).2
      intro v passes dotted
      exact hn (.initial v passes dotted)
    · apply (redirectPolicyQ_altName hp ha).2
      intro hv v passes dotted
      exact hn (.redirect hv v passes dotted)
    · intro hm d address port hd hs
      exact dialContextQ_altName ha hm.name hd hs
    · intro short formed raw' u' formed' dot
      apply (initialGate_dot short (hostname_ne_nil ha) formed formed' dot).2
      by_contra hadm
      exact hn (.verdict short formed raw' u' formed' dot hadm)

end Names

/-- In the direct mode the name rule stops an onion name before any lookup. -/
theorem secluded_direct :
    Secluded asciiTables proxyModeDirect (fun _ => .error (lit "no such host")) 3 []
      (lit "http://x.onion/") (publicURL (lit "x.onion")) := by
  have hs : (publicURL (lit "x.onion")).string = lit "http://x.onion/" := by decide
  have hp : urlParse (lit "http://x.onion/") = .ok (publicURL (lit "x.onion")) := by decide
  have hd : (parseAndValidateURL asciiTables (lit "http://x.onion/") proxyModeDirect).toOption =
      none := by decide
  refine (secluded_iff_not_exposed hp (by decide) _ _ _ _).2 ?_
  intro h
  cases h with
  | initial v passes _ =>
    rw [passes] at hd
    cases hd
  | redirect _ v passes _ =>
    rw [hs] at passes
    rw [passes] at hd
    cases hd
  | verdict short _ =>
    revert short
    decide

/-- An onion name with the root dot is looked up in the DNS, for the first request and for a
redirect, although the mode is Tor's. -/
theorem lookup_of_dotted_onion :
    urlParse (lit "http://x.onion./") = .ok (publicURL (lit "x.onion.")) ∧
      altName asciiTables (publicURL (lit "x.onion.")).hostname = true ∧
      (redirectPolicyQ asciiTables proxyModeTor 3 (publicURL (lit "x.onion.")) []).asked
        (fun _ => .error (lit "no such host")) = [lit "x.onion."] ∧
      ¬ Secluded asciiTables proxyModeTor (fun _ => .error (lit "no such host")) 3 []
        (lit "http://x.onion./") (publicURL (lit "x.onion.")) := by
  refine ⟨by decide, by decide, by decide, ?_⟩
  intro h
  have hi := h.initial
  revert hi
  decide

end HyruleProxy
