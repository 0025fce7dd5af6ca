import HyruleProxy.Client
import HyruleProxy.HeaderKeys

namespace HyruleProxy
set_option autoImplicit true

/-- Reading up to one byte beyond `limit` meets no error. -/
def Body.Readable (b : Body) (limit : Int) : Prop := b.err = none ∨ limit < b.data.length

instance (b : Body) (limit : Int) : Decidable (b.Readable limit) :=
  inferInstanceAs (Decidable (_ ∨ _))

/-- Headers as a map with the keys that `net/http` stores. -/
structure CanonicalHeader (header : List (GoString × List GoString)) : Prop where
  nodup : (header.map Prod.fst).Nodup
  canonical : ∀ e ∈ header, canonicalMIMEHeaderKey e.1 = e.1

def truncatedName : GoString := lit "x-hyrule-truncated"

/-- The values of all entries that have the name, read without regard to ASCII case. -/
def valuesOf (headers : GoMap GoString GoString) (name : GoString) : List GoString :=
  (headers.toList.filter fun e => lowerKey e.1 = name).map Prod.snd

section
variable (U : Unicode)

/-- What a caller may read from a response: the start of the body, a marker that is there for a
truncated body only, no denied header, and every other header once. -/
structure Trustworthy (limit : Int) (resp : Response) (out : NetworkResponse) : Prop where
  body : out.body = resp.body.data.take limit.toNat
  marker : valuesOf out.headers truncatedName =
    if limit < resp.body.data.length then [lit "true"] else []
  denied : ∀ name ∈ responseHeaderDenylist, valuesOf out.headers name = []
  others : ∀ e ∈ resp.header, e.2 ≠ [] → headerName U e.1 ∉ responseHeaderDenylist →
    lowerKey e.1 ≠ truncatedName → valuesOf out.headers (lowerKey e.1) = [joinValues e.2]

/-- Upstream sends no marker of its own, and no two headers that pass differ in case only, which
keys that are tokens never do. -/
structure Unforged (header : List (GoString × List GoString)) : Prop where
  unmarked : ∀ e ∈ header, lowerKey e.1 = truncatedName → e.2 = []
  apart : ∀ e ∈ header, ∀ e' ∈ header, e.2 ≠ [] → e'.2 ≠ [] →
    headerName U e.1 ∉ responseHeaderDenylist → headerName U e'.1 ∉ responseHeaderDenylist →
    lowerKey e.1 = lowerKey e'.1 → e.1 = e'.1

end

section Reading

theorem readLimited_readable (hb : b.Readable limit) (h0 : 0 ≤ limit) :
    readLimited (limit + 1) b = .ok (b.data.take (limit.toNat + 1)) := by
  rw [readLimited]
  split
  · congr 2
    omega
  · rename_i hl
    rcases hb with he | hb
    · rw [he]
      simp only
      rw [List.take_of_length_le (by omega)]
    · omega

variable {U : Unicode} {c : Client} {resp : Response}

/-- What `buildResponse` returns when the limit is not the greatest `int64`. -/
theorem Client.buildResponse_eq (mode : GoString)
    (hlimit : c.cfg.maxResponseBodyBytes < 2 ^ 63 - 1)
    (hb : resp.body.Readable c.cfg.maxResponseBodyBytes) :
    c.buildResponse U resp mode = .ok {
      statusCode := resp.statusCode
      headers := if c.cfg.maxResponseBodyBytes < resp.body.data.length then
          (resp.header.foldl (setHeader U) ∅).insert truncatedName (lit "true")
        else resp.header.foldl (setHeader U) ∅
      body := resp.body.data.take c.cfg.maxResponseBodyBytes.toNat
      proxyMode := mode
      error := none } := by
  have hpos := c.cfg.response_pos
  have hadd : Int.bmod (c.cfg.maxResponseBodyBytes + 1) (2 ^ 64) =
      c.cfg.maxResponseBodyBytes + 1 := Int.bmod_eq_of_le (by omega) (by omega)
  rw [Client.buildResponse, hadd, readLimited_readable hb hpos.le]
  simp only [List.length_take]
  by_cases hl : c.cfg.maxResponseBodyBytes < resp.body.data.length
  · rw [if_pos (by omega), if_pos hl, List.take_take, Nat.min_eq_left (Nat.le_succ _)]
    rfl
  · rw [if_neg (by omega), if_neg hl, List.take_of_length_le (by omega),
      List.take_of_length_le (by omega)]

/-- For the greatest `int64` the limit of the reader overflows and nothing is read. -/
theorem Client.buildResponse_overflow (mode : GoString)
    (hlimit : c.cfg.maxResponseBodyBytes = 2 ^ 63 - 1) :
    c.buildResponse U resp mode = .ok {
      statusCode := resp.statusCode
      headers := resp.header.foldl (setHeader U) ∅
      body := []
      proxyMode := mode
      error := none } := by
  have hadd : Int.bmod (c.cfg.maxResponseBodyBytes + 1) (2 ^ 64) = -2 ^ 63 := by
    rw [hlimit]
    decide
  rw [Client.buildResponse, hadd, readLimited, if_pos (by omega)]
  simp only [hlimit]
  rfl

end Reading

section Values

variable {headers : GoMap GoString GoString}

theorem valuesOf_eq_nil : valuesOf headers name = [] ↔
    ∀ key value, headers[key]? = some value → lowerKey key ≠ name := by
  simp only [valuesOf, List.map_eq_nil_iff, List.filter_eq_nil_iff, Prod.forall,
    GoMap.mem_toList, decide_eq_true_eq]

theorem valuesOf_eq_singleton (h : headers[key]? = some value) :
    valuesOf headers (lowerKey key) = [value] ↔
      ∀ key' value', headers[key']? = some value' → lowerKey key' = lowerKey key → key' = key := by
  have hmem (k v : GoString) : (k, v) ∈ headers.toList.filter (fun e =>
      lowerKey e.1 = lowerKey key) ↔ headers[k]? = some v ∧ lowerKey k = lowerKey key := by
    rw [List.mem_filter, GoMap.mem_toList, decide_eq_true_eq]
  constructor
  · intro hv key' value' h' hl
    obtain ⟨e, he, -⟩ := List.map_eq_singleton_iff.1 hv
    have hk := (hmem key value).2 ⟨h, rfl⟩
    have hk' := (hmem key' value').2 ⟨h', hl⟩
    rw [he, List.mem_singleton] at hk hk'
    rw [← hk] at hk'
    exact congrArg Prod.fst hk'
  · intro hu
    have hp : headers.toList.filter (fun e => lowerKey e.1 = lowerKey key) = [(key, value)] := by
      apply List.perm_singleton.1
      rw [List.perm_ext_iff_of_nodup (headers.nodup_toList.filter _) (List.nodup_singleton _)]
      rintro ⟨k, v⟩
      rw [hmem, List.mem_singleton, Prod.mk.injEq]
      constructor
      · rintro ⟨hk, hl⟩
        have he := hu k v hk hl
        rw [he, h] at hk
        cases hk
        exact ⟨he, rfl⟩
      · rintro ⟨rfl, rfl⟩
        exact ⟨h, rfl⟩
    rw [valuesOf, hp]
    rfl

end Values

section Headers

variable {U : Unicode} {header : List (GoString × List GoString)}

/-- The loop of `buildResponse` keeps the headers with values that the policy allows. -/
theorem CanonicalHeader.get_headers (hh : CanonicalHeader header) :
    (header.foldl (setHeader U) ∅)[key]? = some value ↔ ∃ values, (key, values) ∈ header ∧
      headerName U key ∉ responseHeaderDenylist ∧ values ≠ [] ∧ joinValues values = value := by
  have hfold : header.foldl (setHeader U) ∅ = GoMap.insertAll ∅
      ((header.filter fun e => allowResponseHeader U e.1 = true ∧ e.2 ≠ []).map fun e =>
        (e.1, joinValues e.2)) := by
    rw [GoMap.insertAll, List.foldl_map, List.foldl_filter]
    apply List.foldl_ext
    intro m e _
    simp only [decide_eq_true_eq]
    rfl
  have hmem (v : GoString) :
      (key, v) ∈ (header.filter fun e => allowResponseHeader U e.1 = true ∧ e.2 ≠ []).map
          (fun e => (e.1, joinValues e.2)) ↔ ∃ values, (key, values) ∈ header ∧
        headerName U key ∉ responseHeaderDenylist ∧ values ≠ [] ∧ joinValues values = v := by
    simp only [List.mem_map, List.mem_filter, Prod.exists, Prod.mk.injEq, decide_eq_true_eq,
      allowResponseHeader, headerName]
    constructor
    · rintro ⟨k, values, ⟨hm, ha, hv⟩, rfl, rfl⟩
      exact ⟨values, hm, ha, hv, rfl⟩
    · rintro ⟨values, hm, ha, hv, rfl⟩
      exact ⟨key, values, ⟨hm, ha, hv⟩, rfl, rfl⟩
  rw [hfold, GoMap.get_insertAll, hmem]
  intro v' hv' v hv
  obtain ⟨vs', hm', -, -, rfl⟩ := (hmem v').1 hv'
  obtain ⟨vs, hm, -, -, rfl⟩ := (hmem v).1 hv
  have he := List.inj_on_of_nodup_map hh.nodup hm hm' rfl
  cases he
  rfl

theorem denylist_tokens :
    ∀ name ∈ responseHeaderDenylist, name.all validHeaderFieldByte = true := by
  decide

theorem truncatedName_token : truncatedName.all validHeaderFieldByte = true := by
  decide

theorem headerName_of_lowerKey (U : Unicode) (h : lowerKey key = name)
    (hn : name.all validHeaderFieldByte = true) : headerName U key = name := by
  rw [← h, all_valid_lowerKey] at hn
  rw [headerName_token U hn, h]

theorem CanonicalHeader.truncatedName_notMem (hh : CanonicalHeader header) :
    (truncatedName, values) ∉ header := by
  intro hm
  have hc : canonicalMIMEHeaderKey truncatedName = truncatedName := hh.canonical _ hm
  revert hc
  decide

theorem CanonicalHeader.get_marked (hh : CanonicalHeader header) (p : Prop) [Decidable p]
    (key value : GoString) :
    (if p then (header.foldl (setHeader U) ∅).insert truncatedName (lit "true")
      else header.foldl (setHeader U) ∅)[key]? = some value ↔
        (p ∧ key = truncatedName ∧ value = lit "true") ∨ ∃ values, (key, values) ∈ header ∧
          headerName U key ∉ responseHeaderDenylist ∧ values ≠ [] ∧ joinValues values = value := by
  rw [← hh.get_headers]
  by_cases hp : p
  · rw [if_pos hp, GoMap.get_insert]
    split
    · rename_i hk
      rw [← hk]
      have hn : ¬ (header.foldl (setHeader U) ∅)[truncatedName]? = some value := by
        intro hv
        obtain ⟨values, hm, -⟩ := hh.get_headers.1 hv
        exact hh.truncatedName_notMem hm
      simp only [hp, hn, true_and, or_false, Option.some.injEq]
      exact eq_comm
    · rename_i hk
      simp only [Ne.symm hk, false_and, and_false, false_or]
  · simp only [hp, if_false, false_and, false_or]

end Headers

section Trust

variable {U : Unicode} {c : Client} {resp : Response} {out : NetworkResponse} {limit : Int}
  {header : List (GoString × List GoString)}

/-- The entries of an answer, as `buildResponse` leaves them. -/
def EntriesOf (U : Unicode) (limit : Int) (resp : Response) (out : NetworkResponse) : Prop :=
  ∀ key value, out.headers[key]? = some value ↔
    (limit < resp.body.data.length ∧ key = truncatedName ∧ value = lit "true") ∨
      ∃ values, (key, values) ∈ resp.header ∧ headerName U key ∉ responseHeaderDenylist ∧
        values ≠ [] ∧ joinValues values = value

theorem buildResponse_entries (mode : GoString)
    (hlimit : c.cfg.maxResponseBodyBytes < 2 ^ 63 - 1)
    (hb : resp.body.Readable c.cfg.maxResponseBodyBytes) (hh : CanonicalHeader resp.header) :
    ∃ out, c.buildResponse U resp mode = .ok out ∧
      out.body = resp.body.data.take c.cfg.maxResponseBodyBytes.toNat ∧
        EntriesOf U c.cfg.maxResponseBodyBytes resp out := by
  refine ⟨_, c.buildResponse_eq mode hlimit hb, rfl, ?_⟩
  exact hh.get_marked (c.cfg.maxResponseBodyBytes < resp.body.data.length)

theorem Trustworthy.unforged (hh : CanonicalHeader resp.header) (he : EntriesOf U limit resp out)
    (h : Trustworthy U limit resp out) : Unforged U resp.header := by
  have hentry : ∀ e ∈ resp.header, e.2 ≠ [] → headerName U e.1 ∉ responseHeaderDenylist →
      out.headers[e.1]? = some (joinValues e.2) := fun e hm hv ha =>
    (he _ _).2 (.inr ⟨e.2, hm, ha, hv, rfl⟩)
  have hunmarked : ∀ e ∈ resp.header, lowerKey e.1 = truncatedName → e.2 = [] := by
    intro e hm hl
    by_contra hv
    have ha : headerName U e.1 ∉ responseHeaderDenylist := by
      rw [headerName_of_lowerKey U hl truncatedName_token]
      decide
    have hmarker := h.marker
    split at hmarker
    · rename_i hlt
      have ht := (he truncatedName (lit "true")).2 (.inl ⟨hlt, rfl, rfl⟩)
      have hk := (valuesOf_eq_singleton ht).1 hmarker e.1 _ (hentry e hm hv ha) hl
      have hm : (e.1, e.2) ∈ resp.header := hm
      rw [hk] at hm
      exact hh.truncatedName_notMem hm
    · exact valuesOf_eq_nil.1 hmarker e.1 _ (hentry e hm hv ha) hl
  refine ⟨hunmarked, ?_⟩
  intro e hm e' hm' hv hv' ha ha' hl
  have hne : lowerKey e.1 ≠ truncatedName := fun hn => hv (hunmarked e hm hn)
  have hs := (valuesOf_eq_singleton (hentry e hm hv ha)).1 (h.others e hm hv ha hne)
  exact (hs e'.1 _ (hentry e' hm' hv' ha') hl.symm).symm

theorem Unforged.marker (h : Unforged U resp.header) (he : EntriesOf U limit resp out) :
    valuesOf out.headers truncatedName =
      if limit < resp.body.data.length then [lit "true"] else [] := by
  have honly : ∀ key value, out.headers[key]? = some value → lowerKey key = truncatedName →
      limit < resp.body.data.length ∧ key = truncatedName := by
    intro key value hk hl
    rcases (he key value).1 hk with ⟨hlt, hn, -⟩ | ⟨values, hm, -, hv, -⟩
    · exact ⟨hlt, hn⟩
    · exact absurd (h.unmarked _ hm hl) hv
  split
  · rename_i hlt
    have ht := (he truncatedName (lit "true")).2 (.inl ⟨hlt, rfl, rfl⟩)
    exact (valuesOf_eq_singleton ht).2 fun key value hk hl => (honly key value hk hl).2
  · rename_i hlt
    exact valuesOf_eq_nil.2 fun key value hk hl => hlt (honly key value hk hl).1

theorem denied_of_entries (he : EntriesOf U limit resp out) :
    ∀ name ∈ responseHeaderDenylist, valuesOf out.headers name = [] := by
  intro name hn
  apply valuesOf_eq_nil.2
  intro key value hk hl
  rcases (he key value).1 hk with ⟨-, rfl, -⟩ | ⟨values, -, ha, -⟩
  · rw [← hl] at hn
    revert hn
    decide
  · rw [headerName_of_lowerKey U hl (denylist_tokens name hn)] at ha
    exact ha hn

theorem Unforged.others (h : Unforged U resp.header) (he : EntriesOf U limit resp out)
    (hm : e ∈ resp.header) (hv : e.2 ≠ []) (ha : headerName U e.1 ∉ responseHeaderDenylist)
    (hl : lowerKey e.1 ≠ truncatedName) :
    valuesOf out.headers (lowerKey e.1) = [joinValues e.2] := by
  apply (valuesOf_eq_singleton ((he _ _).2 (.inr ⟨e.2, hm, ha, hv, rfl⟩))).2
  intro key' value' hk' hl'
  rcases (he key' value').1 hk' with ⟨-, rfl, -⟩ | ⟨values', hm', ha', hv', -⟩
  · exact absurd hl'.symm hl
  · exact h.apart _ hm' _ hm hv' hv ha' ha hl'

theorem CanonicalHeader.unforged_of_tokens (hh : CanonicalHeader header)
    (ht : ∀ e ∈ header, e.1.all validHeaderFieldByte = true)
    (hm : ∀ e ∈ header, lowerKey e.1 = truncatedName → e.2 = []) : Unforged U header := by
  refine ⟨hm, ?_⟩
  intro e he e' he' _ _ _ _ hl
  rw [← hh.canonical e he, ← hh.canonical e' he']
  exact (canonical_eq_iff (ht e he) (ht e' he')).2 hl

/-- The answer can be trusted exactly when upstream forges no marker. -/
theorem trustworthy_iff_unforged (mode : GoString)
    (hlimit : c.cfg.maxResponseBodyBytes < 2 ^ 63 - 1)
    (hb : resp.body.Readable c.cfg.maxResponseBodyBytes) (hh : CanonicalHeader resp.header) :
    (∃ out, c.buildResponse U resp mode = .ok out ∧
      Trustworthy U c.cfg.maxResponseBodyBytes resp out) ↔ Unforged U resp.header := by
  obtain ⟨out, hout, hbody, he⟩ := buildResponse_entries (U := U) mode hlimit hb hh
  constructor
  · rintro ⟨out', ho, ht⟩
    rw [hout] at ho
    cases ho
    exact ht.unforged hh he
  · intro h
    refine ⟨out, hout, hbody, h.marker he, denied_of_entries he, ?_⟩
    intro e hm hv ha hl
    exact h.others he hm hv ha hl

def plainResponse : Response where
  statusCode := 200
  header := [(lit "Content-Type", [lit "text/plain"]), (lit "Set-Cookie", [lit "a=1"]),
    (lit "Via", [lit "1.1 a", lit "1.1 b"])]
  body := ⟨lit "ok", none⟩

theorem plainResponse_canonical : CanonicalHeader plainResponse.header :=
  ⟨by decide, by decide⟩

theorem trustworthy_plain : Unforged asciiTables plainResponse.header ∧
    ∃ out, (newClient defaultConfig).buildResponse asciiTables plainResponse proxyModeDirect =
      .ok out ∧ Trustworthy asciiTables 65536 plainResponse out :=
  have h : Unforged asciiTables plainResponse.header :=
    plainResponse_canonical.unforged_of_tokens (by decide) (by decide)
  ⟨h, (trustworthy_iff_unforged proxyModeDirect (by decide) (by decide)
    plainResponse_canonical).2 h⟩

def forgedResponse : Response where
  statusCode := 200
  header := [(lit "X-Hyrule-Truncated", [lit "true"])]
  body := ⟨lit "ok", none⟩

/-- A marker of upstream stands in the answer to a short body. -/
theorem forged_marker : CanonicalHeader forgedResponse.header ∧
    ¬ ∃ out, (newClient defaultConfig).buildResponse asciiTables forgedResponse proxyModeDirect =
      .ok out ∧ Trustworthy asciiTables 65536 forgedResponse out := by
  have hh : CanonicalHeader forgedResponse.header := ⟨by decide, by decide⟩
  refine ⟨hh, ?_⟩
  rintro ⟨out, ho, ht⟩
  obtain ⟨out', ho', -, he⟩ := buildResponse_entries (U := asciiTables)
    (c := newClient defaultConfig) proxyModeDirect (by decide) (by decide) hh
  rw [ho] at ho'
  cases ho'
  have hn := (ht.unforged hh he).unmarked _ List.mem_cons_self (by decide)
  cases hn

end Trust

/-- The JSON object that `writeJSON` emits for a response. -/
structure ResponseJSON where
  statusCode : Int
  headers : List (List Char × List Char)
  body : List Char
  proxyMode : List Char
  error : Option (List Char)

def NetworkResponse.marshal (r : NetworkResponse) : ResponseJSON where
  statusCode := r.statusCode
  headers := r.headers.toList.map fun e => (runes e.1, runes e.2)
  body := runes r.body
  proxyMode := runes r.proxyMode
  error := r.error.map runes

/-- The string that a client decodes from the `body` field. -/
def ResponseJSON.bodyString (o : ResponseJSON) : GoString := utf8Encode o.body

/-- A client reads a prefix of the upstream body, and all of a body within the limit. -/
def PrefixOnWire (limit : Int) (data : GoString) (out : NetworkResponse) : Prop :=
  out.marshal.bodyString <+: data ∧ (data.length ≤ limit → out.marshal.bodyString = data)

/-- The limit cuts no rune, or one that U+FFFD stands for byte by byte; one more than the limit is
an `int64`, or there is nothing to lose. -/
def SafeCut (limit : Int) (data : GoString) : Prop :=
  if limit < 2 ^ 63 - 1 then
    List.replicate (cutAt limit.toNat (runes data)).1 runeError <+:
      (cutAt limit.toNat (runes data)).2
  else data = [] ∨ limit < data.length

section Wire

variable {U : Unicode} {c : Client} {resp : Response}

/-- What the client reads is a prefix of the upstream body exactly for a safe cut. -/
theorem prefixOnWire_iff_safeCut (mode : GoString) (hlimit : c.cfg.maxResponseBodyBytes < 2 ^ 63)
    (hb : resp.body.Readable c.cfg.maxResponseBodyBytes) (hv : ValidUTF8 resp.body.data) :
    (∃ out, c.buildResponse U resp mode = .ok out ∧
      PrefixOnWire c.cfg.maxResponseBodyBytes resp.body.data out) ↔
        SafeCut c.cfg.maxResponseBodyBytes resp.body.data := by
  rw [SafeCut]
  split
  · rename_i hl
    rw [← toValidUTF8_take_prefix_iff hv, Client.buildResponse_eq mode hl hb]
    constructor
    · rintro ⟨out, ho, hp⟩
      cases ho
      exact hp.1
    · intro hp
      refine ⟨_, rfl, hp, ?_⟩
      intro hle
      have ht : resp.body.data.take c.cfg.maxResponseBodyBytes.toNat = resp.body.data :=
        List.take_of_length_le (by omega)
      rw [NetworkResponse.marshal, ResponseJSON.bodyString, ht]
      exact hv
  · rename_i hl
    rw [Client.buildResponse_overflow mode (by omega)]
    constructor
    · rintro ⟨out, ho, hp⟩
      cases ho
      by_cases hle : resp.body.data.length ≤ c.cfg.maxResponseBodyBytes
      · exact .inl (hp.2 hle).symm
      · exact .inr (by omega)
    · intro h
      refine ⟨_, rfl, List.nil_prefix, ?_⟩
      intro hle
      rcases h with h | h
      · rw [h]
        rfl
      · omega

end Wire

def limitedConfig (limit : Int) (h : 0 < limit) : Config :=
  { defaultConfig with maxResponseBodyBytes := limit, response_pos := h }

def textResponse (text : GoString) : Response where
  statusCode := 200
  header := []
  body := ⟨text, none⟩

theorem prefixOnWire_boundary : SafeCut 3 (lit "né!") ∧
    ∃ out, (newClient (limitedConfig 3 (by decide))).buildResponse asciiTables
      (textResponse (lit "né!")) proxyModeDirect = .ok out ∧ PrefixOnWire 3 (lit "né!") out := by
  have h : SafeCut 3 (lit "né!") := by
    rw [SafeCut, if_pos (by decide)]
    decide
  exact ⟨h, (prefixOnWire_iff_safeCut proxyModeDirect (by decide) (.inl rfl)
    (validUTF8_lit "né!")).2 h⟩

/-- A cut inside a rune puts U+FFFD in its place, and the greatest limit loses the whole body. -/
theorem prefix_lost :
    (¬ ∃ out, (newClient (limitedConfig 1 (by decide))).buildResponse asciiTables
      (textResponse (lit "é")) proxyModeDirect = .ok out ∧ PrefixOnWire 1 (lit "é") out) ∧
    ¬ ∃ out, (newClient (limitedConfig (2 ^ 63 - 1) (by decide))).buildResponse asciiTables
      (textResponse (lit "ok")) proxyModeDirect = .ok out ∧
        PrefixOnWire (2 ^ 63 - 1) (lit "ok") out := by
  constructor
  · rintro ⟨out, ho, hp⟩
    rw [Client.buildResponse_eq _ (by decide) (.inl rfl)] at ho
    cases ho
    have hp := hp.1
    revert hp
    decide
  · rintro ⟨out, ho, hp⟩
    rw [Client.buildResponse_overflow _ rfl] at ho
    cases ho
    have hp := hp.2 (by decide)
    revert hp
    decide

end HyruleProxy
