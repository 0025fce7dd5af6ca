import HyruleProxy.GoMap
import HyruleProxy.HeaderKeys

namespace HyruleProxy
set_option autoImplicit true

def requestHeaderAllowlist : List GoString :=
  [lit "accept", lit "accept-language", lit "cache-control", lit "content-type",
    lit "if-modified-since", lit "if-none-match", lit "user-agent"]

/-- The header of an outgoing request. -/
abbrev Header := GoMap GoString (List GoString)

/-- The model of `Header.Set`. -/
def Header.set (h : Header) (key value : GoString) : Header :=
  h.insert (canonicalMIMEHeaderKey key) [value]

section
variable (U : Unicode)

/-- The model of `SanitizeRequestHeaders`, with the entries of its input in the order in which
the loop takes them. -/
def sanitizeRequestHeaders (entries : List (GoString × GoString)) : GoMap GoString GoString :=
  entries.foldl (fun out e =>
    if headerName U e.1 ∈ requestHeaderAllowlist then out.insert e.1 e.2 else out) ∅

/-- The loop of `Client.Do` over the sanitized headers. -/
def setHeaders (entries : List (GoString × GoString)) : Header :=
  entries.foldl (fun h e => h.set e.1 e.2) ∅

/-- A header that `Client.Do` may send for an input map: both loops take the entries of their
maps in some order. -/
def Outgoing (input : GoMap GoString GoString) (h : Header) : Prop :=
  ∃ es fs : List (GoString × GoString), es.Perm input.toList ∧
    fs.Perm (sanitizeRequestHeaders U es).toList ∧ h = setHeaders fs

/-- The orders do not matter, and every key is the canonical form of an allowlisted name with the
value of an entry of that name. -/
structure ExactHeaders (input : GoMap GoString GoString) : Prop where
  unique : ∀ h h', Outgoing U input h → Outgoing U input h' → h = h'
  allowed : ∀ h, Outgoing U input h → ∀ key values, h[key]? = some values →
    ∃ name ∈ requestHeaderAllowlist, key = canonicalMIMEHeaderKey name ∧
      ∃ key' value, input[key']? = some value ∧ headerName U key' = name ∧ values = [value]

/-- Every key that the allowlist lets pass is an allowlisted name up to ASCII case, and keys of
one name have one value. -/
structure PlainKeys (input : GoMap GoString GoString) : Prop where
  spelled : ∀ key value, input[key]? = some value → headerName U key ∈ requestHeaderAllowlist →
    lowerKey key = headerName U key
  agree : ∀ key value key' value', input[key]? = some value → input[key']? = some value' →
    headerName U key ∈ requestHeaderAllowlist → headerName U key' ∈ requestHeaderAllowlist →
    lowerKey key = lowerKey key' → value = value'

end

section Loops

variable {U : Unicode} {input : GoMap GoString GoString}

theorem sanitize_eq (U : Unicode) (es : List (GoString × GoString)) :
    sanitizeRequestHeaders U es =
      GoMap.insertAll ∅ (es.filter fun e => headerName U e.1 ∈ requestHeaderAllowlist) := by
  rw [sanitizeRequestHeaders, GoMap.insertAll, List.foldl_filter]
  apply List.foldl_ext
  intro m e _
  simp only [decide_eq_true_eq]

theorem setHeaders_eq (fs : List (GoString × GoString)) :
    setHeaders fs = GoMap.insertAll ∅ (fs.map fun e => (canonicalMIMEHeaderKey e.1, [e.2])) := by
  rw [setHeaders, GoMap.insertAll, List.foldl_map]
  rfl

theorem get_sanitize (h : es.Perm input.toList) {key value : GoString} :
    (sanitizeRequestHeaders U es)[key]? = some value ↔
      input[key]? = some value ∧ headerName U key ∈ requestHeaderAllowlist := by
  have hmem {k v : GoString} : (k, v) ∈ es.filter (fun e =>
      headerName U e.1 ∈ requestHeaderAllowlist) ↔
        input[k]? = some v ∧ headerName U k ∈ requestHeaderAllowlist := by
    rw [List.mem_filter, h.mem_iff, GoMap.mem_toList, decide_eq_true_eq]
  rw [sanitize_eq, GoMap.get_insertAll, hmem]
  intro v' hv' v hv
  have h' := (hmem.1 hv').1
  rw [(hmem.1 hv).1] at h'
  exact Option.some.inj h'

theorem sanitize_perm (h : es.Perm input.toList) (h' : es'.Perm input.toList) :
    sanitizeRequestHeaders U es = sanitizeRequestHeaders U es' := by
  apply Std.ExtTreeMap.ext_getElem?
  intro k
  apply Option.ext
  intro v
  rw [get_sanitize h, get_sanitize h']

theorem outgoing_iff : Outgoing U input h ↔
    ∃ fs : List (GoString × GoString), fs.Perm (sanitizeRequestHeaders U input.toList).toList ∧
      h = setHeaders fs := by
  constructor
  · rintro ⟨es, fs, he, hf, rfl⟩
    rw [sanitize_perm he (List.Perm.refl _)] at hf
    exact ⟨fs, hf, rfl⟩
  · rintro ⟨fs, hf, rfl⟩
    exact ⟨input.toList, fs, List.Perm.refl _, hf, rfl⟩

theorem mem_sanitized {fs : List (GoString × GoString)}
    (hf : fs.Perm (sanitizeRequestHeaders U input.toList).toList)
    {key value : GoString} : (key, value) ∈ fs ↔
      input[key]? = some value ∧ headerName U key ∈ requestHeaderAllowlist := by
  rw [hf.mem_iff, GoMap.mem_toList, get_sanitize (List.Perm.refl _)]

end Loops

theorem allowlist_tokens : ∀ name ∈ requestHeaderAllowlist,
    name.all validHeaderFieldByte = true ∧ lowerKey name = name := by
  decide

section Exact

variable {U : Unicode} {input : GoMap GoString GoString}

theorem token_of_spelled (h : lowerKey key = headerName U key)
    (ha : headerName U key ∈ requestHeaderAllowlist) : key.all validHeaderFieldByte = true := by
  rw [← all_valid_lowerKey, h]
  exact (allowlist_tokens _ ha).1

theorem PlainKeys.token (h : PlainKeys U input) (hk : input[key]? = some value)
    (ha : headerName U key ∈ requestHeaderAllowlist) : key.all validHeaderFieldByte = true :=
  token_of_spelled (h.spelled key value hk ha) ha

/-- With plain keys the entries under one canonical key have one value. -/
theorem PlainKeys.get_setHeaders (h : PlainKeys U input)
    (hf : fs.Perm (sanitizeRequestHeaders U input.toList).toList) :
    (setHeaders fs)[key]? = some values ↔ ∃ key' value, (input[key']? = some value ∧
      headerName U key' ∈ requestHeaderAllowlist) ∧ canonicalMIMEHeaderKey key' = key ∧
        [value] = values := by
  have hmem {vs : List GoString} :
      (key, vs) ∈ fs.map (fun e => (canonicalMIMEHeaderKey e.1, [e.2])) ↔
        ∃ key' value, (input[key']? = some value ∧ headerName U key' ∈ requestHeaderAllowlist) ∧
          canonicalMIMEHeaderKey key' = key ∧ [value] = vs := by
    simp only [List.mem_map, Prod.exists, mem_sanitized hf, Prod.mk.injEq]
  rw [setHeaders_eq, GoMap.get_insertAll, hmem]
  intro vs' hv' vs hv
  obtain ⟨k', v', ⟨hk', ha'⟩, hc', rfl⟩ := hmem.1 hv'
  obtain ⟨k, v, ⟨hk, ha⟩, hc, rfl⟩ := hmem.1 hv
  have hl := (canonical_eq_iff (h.token hk ha) (h.token hk' ha')).1 (hc.trans hc'.symm)
  rw [h.agree k v k' v' hk hk' ha ha' hl]

theorem PlainKeys.exactHeaders (h : PlainKeys U input) : ExactHeaders U input := by
  constructor
  · intro h₁ h₂ ho₁ ho₂
    obtain ⟨fs₁, hf₁, rfl⟩ := outgoing_iff.1 ho₁
    obtain ⟨fs₂, hf₂, rfl⟩ := outgoing_iff.1 ho₂
    apply Std.ExtTreeMap.ext_getElem?
    intro k
    apply Option.ext
    intro v
    rw [h.get_setHeaders hf₁, h.get_setHeaders hf₂]
  · intro h₁ ho key values hv
    obtain ⟨fs, hf, rfl⟩ := outgoing_iff.1 ho
    obtain ⟨key', value, ⟨hk, ha⟩, hc, rfl⟩ := (h.get_setHeaders hf).1 hv
    refine ⟨headerName U key', ha, ?_, key', value, hk, rfl, rfl⟩
    rw [← hc, ← canonical_lowerKey (h.token hk ha), h.spelled key' value hk ha]

theorem exists_outgoing_last (hk : input[key]? = some value)
    (ha : headerName U key ∈ requestHeaderAllowlist) :
    ∃ h, Outgoing U input h ∧ h[canonicalMIMEHeaderKey key]? = some [value] := by
  have hmem := (mem_sanitized (U := U) (List.Perm.refl _)).2 ⟨hk, ha⟩
  let es := (sanitizeRequestHeaders U input.toList).toList.erase (key, value)
  refine ⟨setHeaders (es ++ [(key, value)]), outgoing_iff.2 ⟨es ++ [(key, value)], ?_, rfl⟩, ?_⟩
  · exact (List.perm_append_singleton _ _).trans (List.perm_cons_erase hmem).symm
  · rw [setHeaders_eq, List.map_append, List.map_singleton, GoMap.get_insertAll_snoc, if_pos rfl]

theorem ExactHeaders.plainKeys (h : ExactHeaders U input) : PlainKeys U input := by
  have hspelled : ∀ key value, input[key]? = some value →
      headerName U key ∈ requestHeaderAllowlist → lowerKey key = headerName U key := by
    intro key value hk ha
    by_cases ht : key.all validHeaderFieldByte = true
    · exact (headerName_token U ht).symm
    · -- A key that is no token is sent as it is, so it is itself a canonical name.
      exfalso
      obtain ⟨h₁, ho, hv⟩ := exists_outgoing_last hk ha
      rw [canonicalMIMEHeaderKey, if_neg ht] at hv
      obtain ⟨name, hn, he, _⟩ := h.allowed h₁ ho key _ hv
      apply ht
      rw [← all_valid_lowerKey, he, lowerKey_canonical, (allowlist_tokens name hn).2]
      exact (allowlist_tokens name hn).1
  refine ⟨hspelled, ?_⟩
  intro key value key' value' hk hk' ha ha' hl
  obtain ⟨h₁, ho, hv⟩ := exists_outgoing_last hk ha
  obtain ⟨h₂, ho', hv'⟩ := exists_outgoing_last hk' ha'
  have hc : canonicalMIMEHeaderKey key = canonicalMIMEHeaderKey key' :=
    (canonical_eq_iff (token_of_spelled (hspelled key value hk ha) ha)
      (token_of_spelled (hspelled key' value' hk' ha') ha')).2 hl
  rw [h.unique h₁ h₂ ho ho', hc, hv'] at hv
  cases hv
  rfl

/-- The outgoing headers are as they should be exactly for plain keys. -/
theorem exactHeaders_iff_plainKeys (U : Unicode) (input : GoMap GoString GoString) :
    ExactHeaders U input ↔ PlainKeys U input :=
  ⟨ExactHeaders.plainKeys, PlainKeys.exactHeaders⟩

end Exact

/-- A padded key is sent as it is, and of two spellings of one name the order decides. -/
theorem inexact_headers :
    ¬ ExactHeaders asciiTables ((∅ : GoMap GoString GoString).insert (lit " Accept") (lit "x")) ∧
      ¬ ExactHeaders asciiTables
        (((∅ : GoMap GoString GoString).insert (lit "Accept") (lit "a")).insert (lit "accept")
          (lit "b")) := by
  constructor
  · intro h
    have hs := h.plainKeys.spelled (lit " Accept") (lit "x") (by decide) (by decide)
    revert hs
    decide
  · intro h
    have ha := h.plainKeys.agree (lit "Accept") (lit "a") (lit "accept") (lit "b")
      (by decide) (by decide) (by decide) (by decide)
      (by decide)
    revert ha
    decide

end HyruleProxy
