import HyruleProxy.Handler
import HyruleProxy.RequestCodec
import HyruleProxy.Responses

namespace HyruleProxy
set_option autoImplicit true

def decodeLimitedJSON (r : Body) (maxBytes : Int) : Except DecodeError WireRequest :=
  match readLimited (Int.bmod (maxBytes + 1) (2 ^ 64)) r with
  | .error e => .error (.plain e)
  | .ok data =>
    if (data.length : Int) > maxBytes then .error (.plain (lit "request exceeds limit"))
    else decodeJSON data

/-- The request that `handleRequest` finds in a body. -/
def Config.decodeRequest (cfg : Config) (r : Body) : Except DecodeError WireRequest :=
  decodeLimitedJSON r (Int.bmod (cfg.maxRequestBodyBytes + 4096) (2 ^ 64))

/-- The request without its body. -/
def WireRequest.bodiless (req : WireRequest) : WireRequest := { req with body := none }

/-- A request whose body `Client.Do` lets pass, with at most 4096 bytes for the rest of it. -/
structure WithinLimits (cfg : Config) (req : WireRequest) : Prop where
  body : ∀ b ∈ req.body, (b.length : Int) ≤ cfg.maxRequestBodyBytes ∧ ValidUTF8 b
  rest : req.bodiless.marshal.length ≤ 4096

/-- `handleRequest` finds the request in its own text. -/
def LimitsAgree (cfg : Config) (req : WireRequest) : Prop :=
  cfg.decodeRequest ⟨req.marshal, none⟩ = .ok req

/-- The bytes that a rune takes in a string literal. -/
def escapedSize (c : Char) : Nat :=
  if (Json.shortEscape c).isSome then 2 else if Json.isCoded c then 6 else c.utf8Size

def escapedLength (s : GoString) : Nat := ((runes s).map escapedSize).sum

/-- The body as it is escaped, with its key and quotes, fits in what the rest leaves of the
limit. -/
def EscapedFits (cfg : Config) (req : WireRequest) : Prop :=
  ∀ b ∈ req.body,
    (req.bodiless.marshal.length + 10 + escapedLength b : Int) ≤ cfg.maxRequestBodyBytes + 4096

section Limit

theorem decodeLimitedJSON_eq (data : GoString) (h0 : 0 ≤ maxBytes) (hmax : maxBytes < 2 ^ 63 - 1) :
    decodeLimitedJSON ⟨data, none⟩ maxBytes =
      if maxBytes < data.length then .error (.plain (lit "request exceeds limit"))
      else decodeJSON data := by
  have hadd : Int.bmod (maxBytes + 1) (2 ^ 64) = maxBytes + 1 :=
    Int.bmod_eq_of_le (by omega) (by omega)
  rw [decodeLimitedJSON, hadd, readLimited_readable (.inl rfl) h0]
  simp only [List.length_take]
  by_cases hl : maxBytes < data.length
  · rw [if_pos (by omega), if_pos hl]
  · rw [if_neg (by omega), if_neg hl, List.take_of_length_le (by omega)]

theorem Config.decodeRequest_eq {cfg : Config} (hmax : cfg.maxRequestBodyBytes < 2 ^ 62)
    (data : GoString) : cfg.decodeRequest ⟨data, none⟩ =
      if cfg.maxRequestBodyBytes + 4096 < data.length then
        .error (.plain (lit "request exceeds limit"))
      else decodeJSON data := by
  have hpos := cfg.request_pos
  have hadd : Int.bmod (cfg.maxRequestBodyBytes + 4096) (2 ^ 64) =
      cfg.maxRequestBodyBytes + 4096 := Int.bmod_eq_of_le (by omega) (by omega)
  rw [Config.decodeRequest, hadd, decodeLimitedJSON_eq data (by omega) (by omega)]

theorem Config.decodeRequest_eq_ok {cfg : Config} (h : cfg.decodeRequest r = .ok req) :
    ∃ data : GoString,
      (data.length : Int) ≤ Int.bmod (cfg.maxRequestBodyBytes + 4096) (2 ^ 64) ∧
        decodeJSON data = .ok req := by
  rw [Config.decodeRequest, decodeLimitedJSON] at h
  cases hr : readLimited _ r with
  | error e =>
    rw [hr] at h
    cases h
  | ok data =>
    rw [hr] at h
    simp only at h
    split at h
    · cases h
    · rename_i hle
      exact ⟨data, not_lt.1 hle, h⟩

theorem Config.decodeRequest_valid {cfg : Config} (h : cfg.decodeRequest r = .ok req) :
    req.Valid := by
  obtain ⟨data, _, hdata⟩ := decodeRequest_eq_ok h
  exact decodeJSON_valid hdata

/-- The outcome of the decoder as the rest of `handleRequest` takes it, with the text of an error,
which is what package `json` says of a body that it refuses. -/
def toDecoded (jsonError : DecodeError → GoString) : (out : Except DecodeError WireRequest) →
    (∀ req, out = .ok req → req.Valid) → Except GoString DecodedRequest
  | .error e, _ => .error (jsonError e)
  | .ok req, hv =>
    .ok ⟨req.toNetworkRequest, (hv req rfl).url, (hv req rfl).method, (hv req rfl).body,
      (hv req rfl).proxyMode⟩

def Config.decodeBody (cfg : Config) (jsonError : DecodeError → GoString) (body : Body) :
    Except GoString DecodedRequest :=
  toDecoded jsonError (cfg.decodeRequest body) fun _ => decodeRequest_valid

theorem toDecoded_eq_ok {out : Except DecodeError WireRequest}
    {hv : ∀ req, out = .ok req → req.Valid} (h : toDecoded jsonError out hv = .ok r) :
    ∃ req, out = .ok req ∧ req.toNetworkRequest = r.toNetworkRequest := by
  cases out with
  | error e => cases h
  | ok req =>
    cases h
    exact ⟨req, rfl, rfl⟩

theorem exists_toDecoded {out : Except DecodeError WireRequest} (jsonError : DecodeError → GoString)
    (hv : ∀ req, out = .ok req → req.Valid) (h : out = .ok req) :
    ∃ r, toDecoded jsonError out hv = .ok r ∧ r.toNetworkRequest = req.toNetworkRequest := by
  subst h
  exact ⟨_, rfl, rfl⟩

/-- A request is found again when its strings are valid and its text is within the limit. -/
theorem limitsAgree_iff_length {cfg : Config} {req : WireRequest}
    (hmax : cfg.maxRequestBodyBytes < 2 ^ 62) :
    LimitsAgree cfg req ↔
      req.Valid ∧ (req.marshal.length : Int) ≤ cfg.maxRequestBodyBytes + 4096 := by
  rw [LimitsAgree, Config.decodeRequest_eq hmax]
  by_cases hl : cfg.maxRequestBodyBytes + 4096 < req.marshal.length
  · rw [if_pos hl]
    constructor
    · intro h
      cases h
    · rintro ⟨_, hle⟩
      omega
  · rw [if_neg hl]
    constructor
    · intro h
      exact ⟨decodeJSON_valid h, not_lt.1 hl⟩
    · rintro ⟨hvalid, _⟩
      exact decodeJSON_marshal hvalid

end Limit

section Length

theorem length_utf8Encode (cs : List Char) :
    (utf8Encode cs).length = (cs.map Char.utf8Size).sum := by
  rw [utf8Encode, List.length_flatMap]
  simp only [String.length_utf8EncodeChar]

theorem utf8Size_digitChar (h : d < 16) : d.digitChar.utf8Size = 1 := by
  interval_cases d <;> rfl

theorem length_escape (c : Char) : (utf8Encode (Json.escape c)).length = escapedSize c := by
  rw [length_utf8Encode, Json.escape, escapedSize]
  cases he : Json.shortEscape c with
  | some e =>
    have hall : ∀ p ∈ Json.shortEscapes, p.1.utf8Size = 1 := by decide
    obtain ⟨p, hp, rfl⟩ := Option.map_eq_some_iff.1 he
    simp only [List.map_cons, List.map_nil, hall p (List.mem_of_find?_eq_some hp)]
    rfl
  | none =>
    have hmod : ∀ m : Nat, (m % 16).digitChar.utf8Size = 1 := fun m =>
      utf8Size_digitChar (Nat.mod_lt m (by decide))
    by_cases hc : Json.isCoded c = true
    · simp only [if_pos hc, Json.hexText, List.map_cons, List.map_nil, hmod]
      rfl
    · simp [hc]

theorem length_appendString (h : ValidUTF8 s) :
    (appendString s).length = escapedLength s + 2 := by
  have hsum : ∀ cs : List Char,
      (utf8Encode (cs.flatMap Json.escape)).length = (cs.map escapedSize).sum := by
    intro cs
    induction cs with
    | nil => rfl
    | cons c cs ih =>
      rw [List.flatMap_cons, utf8Encode_append, List.length_append, length_escape, ih,
        List.map_cons, List.sum_cons]
  rw [appendString_eq h, Json.printString, utf8Encode_cons, utf8Encode_append, List.length_append,
    List.length_append, hsum]
  exact Nat.add_comm 1 _

theorem length_join (sep : α) {ts : List (List α)} (h : ts ≠ []) :
    (Json.join sep ts).length + 1 = (ts.map fun t => t.length + 1).sum := by
  induction ts with
  | nil => exact absurd rfl h
  | cons t ts ih =>
    cases ts with
    | nil => rfl
    | cons u us =>
      have hrest := ih (List.cons_ne_nil u us)
      rw [Json.join, List.length_append, List.length_cons, List.map_cons, List.sum_cons, ← hrest]
      omega

/-- The bytes that a field adds to the text, with the separator. -/
def WireRequest.cost (req : WireRequest) (f : Field) : Nat :=
  ((req.value f).map fun v => (appendString (lit f.tag)).length + v.encode.length + 2).getD 0

theorem sum_fields (req : WireRequest) (fs : List Field) :
    ((fs.filterMap fun f => (req.value f).map fun v => (f, v)).map fun m =>
      (appendString (lit m.1.tag)).length + m.2.encode.length + 2).sum = (fs.map req.cost).sum := by
  induction fs with
  | nil => rfl
  | cons f fs ih =>
    rw [List.map_cons, List.sum_cons, ← ih, WireRequest.cost]
    cases hv : req.value f with
    | none =>
      rw [List.filterMap_cons_none (by rw [hv]; rfl)]
      exact (Nat.zero_add _).symm
    | some v =>
      rw [List.filterMap_cons_some (b := (f, v)) (by rw [hv]; rfl)]
      rfl

theorem length_marshal (req : WireRequest) :
    req.marshal.length = (Field.all.map req.cost).sum + 1 := by
  have hurl : (Field.url, Value.string req.url) ∈ req.fields :=
    List.mem_filterMap.2 ⟨.url, by decide, rfl⟩
  have hne : (req.fields.map fun f => appendString (lit f.1.tag) ++ ch ':' :: f.2.encode) ≠ [] :=
    List.ne_nil_of_mem (List.mem_map_of_mem hurl)
  have hjoin := length_join (ch ',') hne
  -- every member counts a separator, one more than there are, and the brackets are two bytes
  have hsum := sum_fields req Field.all
  simp only [List.map_map, Function.comp_def, List.length_append, List.length_cons] at hjoin
  rw [WireRequest.marshal, appendObject, List.map_map, List.length_cons, List.length_append,
    List.length_singleton, ← hsum]
  exact congrArg (· + 1) hjoin

theorem length_marshal_body {req : WireRequest} (hb : req.body = some b) :
    req.marshal.length = req.bodiless.marshal.length + 8 + (appendString b).length := by
  have hkey : (appendString (lit Field.body.tag)).length = 6 := by decide
  have hsome : req.cost .body = 6 + (appendString b).length + 2 := by
    rw [WireRequest.cost, WireRequest.value, hb, hkey]
    rfl
  have hnone : req.bodiless.cost .body = 0 := rfl
  have hothers : ∀ f ≠ Field.body, req.bodiless.cost f = req.cost f := by
    intro f hf
    cases f <;> first | rfl | exact absurd rfl hf
  rw [length_marshal, length_marshal]
  simp only [Field.all, List.map_cons, List.map_nil, List.sum_cons, List.sum_nil, hsome, hnone,
    hothers .requestID (by decide), hothers .url (by decide), hothers .method (by decide),
    hothers .headers (by decide), hothers .proxyMode (by decide),
    hothers .timeoutSeconds (by decide)]
  omega

end Length

/-- A request within the limits is found again exactly when its escaped body fits and its other
strings are valid. -/
theorem limitsAgree_iff (cfg : Config) (req : WireRequest)
    (hmax : cfg.maxRequestBodyBytes < 2 ^ 62) (h : WithinLimits cfg req) :
    LimitsAgree cfg req ↔ EscapedFits cfg req ∧ req.ValidStrings := by
  have hpos := cfg.request_pos
  have hlength : EscapedFits cfg req ↔
      (req.marshal.length : Int) ≤ cfg.maxRequestBodyBytes + 4096 := by
    cases hb : req.body with
    | none =>
      have hsame : req.bodiless = req := by
        rw [WireRequest.bodiless, ← hb]
      have hrest := h.rest
      rw [hsame] at hrest
      constructor
      · intro _
        omega
      · intro _ b hb'
        rw [hb] at hb'
        cases hb'
    | some b =>
      have hvalid := (h.body b hb).2
      have hlen := length_marshal_body hb
      rw [length_appendString hvalid] at hlen
      constructor
      · intro hfits
        have hle := hfits b hb
        omega
      · intro hle b' hb'
        cases hb.symm.trans hb'
        omega
  rw [limitsAgree_iff_length hmax, hlength]
  constructor
  · rintro ⟨hvalid, hle⟩
    exact ⟨hle, hvalid.toValidStrings⟩
  · rintro ⟨hle, hstrings⟩
    exact ⟨⟨hstrings, fun b hb => (h.body b hb).2⟩, hle⟩

/-- A body with two quotes, a newline and a rune outside ASCII. -/
def sampleRequest : WireRequest where
  url := lit "http://example.com/"
  method := lit "POST"
  body := some (lit "\"é\"\n")
  proxyMode := lit "direct"
  requestID := []
  headers := (∅ : GoMap GoString GoString).insert (lit "accept") (lit "*/*")
  timeoutSeconds := 5

theorem limitsAgree_sample : WithinLimits defaultConfig sampleRequest ∧
    LimitsAgree defaultConfig sampleRequest := by
  have hheaders : ∀ e ∈ sampleRequest.headers.toList, ValidUTF8 e.1 ∧ ValidUTF8 e.2 := by
    decide
  have hvalid : sampleRequest.ValidStrings :=
    { requestID := by decide
      url := by decide
      method := by decide
      headers := fun k s hk => hheaders (k, s) (GoMap.mem_toList.2 hk)
      proxyMode := by decide }
  have hwithin : WithinLimits defaultConfig sampleRequest :=
    { body := by
        rintro b ⟨rfl⟩
        decide
      rest := by decide +kernel }
  have hfits : EscapedFits defaultConfig sampleRequest := by
    rintro b ⟨rfl⟩
    decide +kernel
  exact ⟨hwithin, (limitsAgree_iff defaultConfig sampleRequest (by decide) hwithin).2
    ⟨hfits, hvalid⟩⟩

/-- A body of quotes that is as long as the default limit allows. -/
def quotesRequest : WireRequest where
  url := lit "http://example.com/"
  method := lit "POST"
  body := some (List.replicate 65536 (ch '"'))
  proxyMode := lit "direct"
  requestID := []
  headers := ∅
  timeoutSeconds := 0

theorem utf8Encode_replicate (hc : String.utf8EncodeChar c = [b]) (n : Nat) :
    utf8Encode (List.replicate n c) = List.replicate n b := by
  induction n with
  | zero => rfl
  | succ n ih =>
    rw [List.replicate_succ, utf8Encode_cons, hc, ih]
    rfl

theorem quotes_refused : WithinLimits defaultConfig quotesRequest ∧
    defaultConfig.decodeRequest ⟨quotesRequest.marshal, none⟩ =
      .error (.plain (lit "request exceeds limit")) ∧
    ¬ LimitsAgree defaultConfig quotesRequest := by
  have htext : List.replicate 65536 (ch '"') = utf8Encode (List.replicate 65536 '"') :=
    (utf8Encode_replicate (by decide) 65536).symm
  have hvalid : ValidUTF8 (List.replicate 65536 (ch '"')) := by
    rw [htext]
    exact validUTF8_utf8Encode _
  have hlen : escapedLength (List.replicate 65536 (ch '"')) = 131072 := by
    rw [htext, escapedLength, runes_utf8Encode, List.map_replicate, List.sum_replicate]
    rfl
  have hwithin : WithinLimits defaultConfig quotesRequest :=
    { body := by
        rintro b ⟨rfl⟩
        refine ⟨?_, hvalid⟩
        rw [List.length_replicate]
        decide
      rest := by decide }
  have hbody : quotesRequest.body = some (List.replicate 65536 (ch '"')) := rfl
  have hmarshal := length_marshal_body hbody
  rw [length_appendString hvalid, hlen] at hmarshal
  have hrefused : defaultConfig.decodeRequest ⟨quotesRequest.marshal, none⟩ =
      .error (.plain (lit "request exceeds limit")) := by
    rw [Config.decodeRequest_eq (by decide), if_pos]
    rw [hmarshal]
    simp only [defaultConfig]
    omega
  refine ⟨hwithin, hrefused, ?_⟩
  intro h
  rw [LimitsAgree, hrefused] at h
  cases h

end HyruleProxy
