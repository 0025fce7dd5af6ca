import HyruleProxy.Redirects

namespace HyruleProxy
set_option autoImplicit true

section Text

variable (U : Unicode)

theorem bracket_lower (hb : b ∈ lit "[]") : b < 128 ∧ asciiLower b = b := by
  have hall : ∀ b ∈ lit "[]", b < 128 ∧ asciiLower b = b := by decide +kernel
  exact hall b hb

variable {suffix : GoString}

theorem hasSuffix_dropWhile (hh : ∀ b ∈ lit "[]", suffix.head? ≠ some b) (s : GoString)
    (h : suffix <:+ toLower U s) : suffix <:+ toLower U (s.dropWhile (· ∈ lit "[]")) := by
  induction s with
  | nil => exact h
  | cons b s ih =>
    by_cases hb : b ∈ lit "[]"
    · obtain ⟨hlt, hlow⟩ := bracket_lower hb
      rw [List.dropWhile_cons_of_pos (by simpa using hb)]
      rw [toLower_cons U hlt, hlow] at h
      apply ih
      rcases List.suffix_cons_iff.1 h with he | h
      · exact absurd (by rw [he]; rfl) (hh b hb)
      · exact h
    · rw [List.dropWhile_cons_of_neg (by simpa using hb)]
      exact h

theorem rdropWhile_of_hasSuffix (hne : suffix ≠ [])
    (hl : ∀ b ∈ lit "[]", suffix.getLast? ≠ some b) {s : GoString} (h : suffix <:+ toLower U s) :
    s.rdropWhile (· ∈ lit "[]") = s := by
  rw [List.rdropWhile_eq_self_iff]
  intro hs hb
  rw [decide_eq_true_eq] at hb
  obtain ⟨hlt, hlow⟩ := bracket_lower hb
  rw [← List.dropLast_append_getLast hs, toLower_snoc U hlt, hlow] at h
  obtain ⟨t, ht⟩ := h
  have hlast := congrArg List.getLast? ht
  rw [List.getLast?_append_of_ne_nil t hne, List.getLast?_concat] at hlast
  exact hl _ hb hlast

theorem hasSuffix_trim (hne : suffix ≠ []) (hh : ∀ b ∈ lit "[]", suffix.head? ≠ some b)
    (hl : ∀ b ∈ lit "[]", suffix.getLast? ≠ some b) (h : hasSuffix (toLower U s) suffix = true) :
    hasSuffix (toLower U (trim s (lit "[]"))) suffix = true := by
  have hd := hasSuffix_dropWhile U hh s (List.isSuffixOf_iff_suffix.1 h)
  rw [trim, rdropWhile_of_hasSuffix U hne hl hd]
  exact List.isSuffixOf_iff_suffix.2 hd

theorem hasSuffix_trim_onion (h : hasSuffix (toLower U s) (lit ".onion") = true) :
    hasSuffix (toLower U (trim s (lit "[]"))) (lit ".onion") = true :=
  hasSuffix_trim U (by decide +kernel) (by decide +kernel) (by decide +kernel) h

theorem hasSuffix_trim_i2p (h : hasSuffix (toLower U s) (lit ".i2p") = true) :
    hasSuffix (toLower U (trim s (lit "[]"))) (lit ".i2p") = true :=
  hasSuffix_trim U (by decide +kernel) (by decide +kernel) (by decide +kernel) h

end Text

/-- The gates of `Client.Do` for the URL of a request. -/
def initialGateQ (U : Unicode) (raw mode : GoString) : Lookups (Except GoError Unit) :=
  match parseAndValidateURL U raw mode with
  | .error e => .done (.error e)
  | .ok parsed => validateHostQ U parsed.hostname mode

def initialGate (U : Unicode) (raw mode : GoString) (resolver : Resolver) : Except GoError Unit :=
  (initialGateQ U raw mode).run resolver

theorem prepare_gate (h : Client.prepare U c lookup req mode = .ok p) :
    initialGate U req.url mode (defaultResolver lookup) = .ok () := by
  obtain ⟨parsed, v, hp, hg, -⟩ := prepare_eq_ok h
  rw [initialGate, initialGateQ, hp]
  exact hg

/-- The short cuts of `validateHost`, which come before any look at the form of the host. -/
def shortCut (U : Unicode) (mode host : GoString) : Bool :=
  (mode = proxyModeTor && hasSuffix (toLower U host) (lit ".onion")) ||
    (mode = proxyModeI2P && hasSuffix (toLower U host) (lit ".i2p"))

/-- `ValidateResolvedHost` refuses the host without asking the resolver. -/
def barred (U : Unicode) (mode host : GoString) : Bool :=
  match parseAddr (trim host (lit "[]")) with
  | some ip => !ipAllowedForMode ip mode
  | none => isLocalhost U (trim host (lit "[]"))

theorem validateHost_eq_shortCut : validateHost U host mode resolver =
    if shortCut U mode host = true then .ok () else validateResolvedHost U host mode resolver := by
  by_cases ht : mode = proxyModeTor ∧ hasSuffix (toLower U host) (lit ".onion") = true
  · rw [validateHost, validateHostQ, if_pos ht, shortCut]
    simp [ht]
  · by_cases hi : mode = proxyModeI2P ∧ hasSuffix (toLower U host) (lit ".i2p") = true
    · rw [validateHost, validateHostQ, if_neg ht, if_pos hi, shortCut]
      simp [hi]
    · have hs : shortCut U mode host = false := by
        rw [shortCut]
        simpa [not_and] using And.intro ht hi
      rw [validateHost, validateHostQ, if_neg ht, if_neg hi, hs]
      rfl

theorem validateResolvedHost_of_shortCut (h : shortCut U mode host = true) :
    validateResolvedHost U host mode resolver = .ok () ↔ barred U mode host = false := by
  have hs : hasSuffix (toLower U (trim host (lit "[]"))) (lit ".onion") = true ∨
      hasSuffix (toLower U (trim host (lit "[]"))) (lit ".i2p") = true := by
    rw [shortCut, Bool.or_eq_true, Bool.and_eq_true, Bool.and_eq_true] at h
    rcases h with ⟨_, h⟩ | ⟨_, h⟩
    · exact .inl (hasSuffix_trim_onion U h)
    · exact .inr (hasSuffix_trim_i2p U h)
  rw [validateResolvedHost, validateResolvedHostQ, barred]
  cases hp : parseAddr (trim host (lit "[]")) with
  | some ip =>
    simp only
    cases ipAllowedForMode ip mode <;> simp
  | none =>
    simp only
    cases isLocalhost U (trim host (lit "[]")) with
    | true => simp
    | false => simp [hs]

/-- The URL passes `ParseAndValidateURL` and takes a short cut, and its host is one that the
redirect gate refuses. -/
structure Smuggled (U : Unicode) (mode : GoString) (u : URL) : Prop where
  passes : ∃ v, parseAndValidateURL U u.string mode = .ok v
  short : shortCut U mode u.hostname = true
  barred : barred U mode u.hostname = true

theorem hostname_of_roundTrips (hr : URL.RoundTrips u)
    (hv : parseAndValidateURL U u.string mode = .ok v) : v.hostname = u.hostname := by
  obtain ⟨_, hp, _⟩ := parseAndValidateURL_eq_ok.1 hv
  rw [URL.hostname, URL.hostname, (hr v hp).2.1]

/-- The gate of the first request and the gate of the redirects agree about a URL, except when
a short cut lets a barred host pass. -/
theorem gates_agree_iff_not_smuggled (hr : URL.RoundTrips u)
    (hv : (via.length : Int) ≤ maxRedirects) :
    (initialGate U u.string mode resolver = .ok () ↔
      redirectPolicy U mode maxRedirects resolver u via = .ok ()) ↔ ¬ Smuggled U mode u := by
  rw [initialGate, initialGateQ, redirectPolicy, redirectPolicyQ, if_neg (Int.not_lt.2 hv)]
  cases hp : parseAndValidateURL U u.string mode with
  | error e =>
    refine iff_of_true Iff.rfl ?_
    rintro ⟨⟨v, hv⟩, _, _⟩
    rw [hp] at hv
    cases hv
  | ok v =>
    simp only
    rw [← validateHost, ← validateResolvedHost, hostname_of_roundTrips hr hp,
      validateHost_eq_shortCut]
    by_cases hs : shortCut U mode u.hostname = true
    · rw [if_pos hs, validateResolvedHost_of_shortCut hs]
      constructor
      · intro h hm
        rw [hm.barred] at h
        cases h.1 rfl
      · intro hm
        refine iff_of_true rfl ?_
        cases hb : barred U mode u.hostname with
        | false => rfl
        | true => exact absurd ⟨⟨v, hp⟩, hs, hb⟩ hm
    · rw [if_neg hs]
      exact iff_of_true Iff.rfl fun hm => hs hm.short

theorem gates_agree_onion :
    initialGate asciiTables (publicURL (lit "x.onion")).string proxyModeTor
        (fun _ => .error (lit "no such host")) = .ok () ↔
      redirectPolicy asciiTables proxyModeTor 3 (fun _ => .error (lit "no such host"))
        (publicURL (lit "x.onion")) [] = .ok () := by
  have hp : urlParse (publicURL (lit "x.onion")).string = .ok (publicURL (lit "x.onion")) := by
    decide
  have hr := urlParse_roundTrips hp (by decide)
  apply (gates_agree_iff_not_smuggled hr (by decide)).2
  intro h
  have hb := h.barred
  revert hb
  decide

/-- The zone of a link-local address ends like an onion name. -/
theorem smuggled_zone :
    URL.RoundTrips (publicURL (lit "[fe80::1%x.onion]")) ∧
      initialGate asciiTables (publicURL (lit "[fe80::1%x.onion]")).string proxyModeTor
        (fun _ => .error (lit "no such host")) = .ok () ∧
      redirectPolicy asciiTables proxyModeTor 3 (fun _ => .error (lit "no such host"))
        (publicURL (lit "[fe80::1%x.onion]")) [] ≠ .ok () := by
  have hp : urlParse (publicURL (lit "[fe80::1%x.onion]")).string =
      .ok (publicURL (lit "[fe80::1%x.onion]")) := by
    decide
  exact ⟨urlParse_roundTrips hp (by decide), by decide, by decide⟩

end HyruleProxy
