import HyruleProxy.Client
import HyruleProxy.JsonText
import HyruleProxy.PortRange

namespace HyruleProxy
set_option autoImplicit true

/-- A request with all the fields that its JSON text has. -/
structure WireRequest extends NetworkRequest where
  requestID : GoString
  headers : GoMap GoString GoString
  timeoutSeconds : Int64

/-- The fields of a request, in their order in the structure. -/
inductive Field where
  | requestID
  | url
  | method
  | headers
  | body
  | proxyMode
  | timeoutSeconds
  deriving DecidableEq

def Field.tag : Field → String
  | .requestID => "request_id"
  | .url => "url"
  | .method => "method"
  | .headers => "headers"
  | .body => "body"
  | .proxyMode => "proxy_mode"
  | .timeoutSeconds => "timeout_seconds"

def Field.all : List Field :=
  [.requestID, .url, .method, .headers, .body, .proxyMode, .timeoutSeconds]

section Encode

/-- A string as package `json` writes it. -/
def appendString (s : GoString) : GoString := utf8Encode (Json.literal s)

def appendObject (ms : List (GoString × GoString)) : GoString :=
  ch '{' :: (Json.join (ch ',') (ms.map fun m => appendString m.1 ++ ch ':' :: m.2) ++ [ch '}'])

/-- A value of a field; a map is the list of its entries in the order of the keys. -/
inductive Value where
  | string (s : GoString)
  | strings (es : List (GoString × GoString))
  | int (n : Int64)

def Value.encode : Value → GoString
  | .string s => appendString s
  | .strings es => appendObject (es.map fun e => (e.1, appendString e.2))
  | .int n => itoa n.toInt

/-- What is written for a field; an optional one is left out when it is empty. -/
def WireRequest.value (req : WireRequest) : Field → Option Value
  | .requestID => if req.requestID = [] then none else some (.string req.requestID)
  | .url => some (.string req.url)
  | .method => some (.string req.method)
  | .headers => if req.headers.toList = [] then none else some (.strings req.headers.toList)
  | .body => req.body.map .string
  | .proxyMode => some (.string req.proxyMode)
  | .timeoutSeconds => some (.int req.timeoutSeconds)

def WireRequest.fields (req : WireRequest) : List (Field × Value) :=
  Field.all.filterMap fun f => (req.value f).map fun v => (f, v)

/-- `json.Marshal` of a request. -/
def WireRequest.marshal (req : WireRequest) : GoString :=
  appendObject (req.fields.map fun f => (lit f.1.tag, f.2.encode))

end Encode

section Decode

/-- Why a body is refused: with a text of the reader or of `decodeLimitedJSON` itself, as no JSON,
or for a member that does not fit the request. -/
inductive DecodeError where
  | plain (text : GoString)
  | malformed
  | unknownField (key : GoString)
  | mismatch (field : GoString)

/-- The folding under which keys are compared. Other runes outside ASCII never fold to a rune of a
tag. -/
def foldRune (c : Char) : Char :=
  if c = '\u017f' then 'S' else if c = '\u212a' then 'K' else c.toUpper

def foldName (key : List Char) : List Char := key.map foldRune

def findField (key : List Char) : Option Field :=
  Field.all.find? fun f => foldName f.tag.toList = foldName key

/-- `strconv.ParseInt` in base 10 for an `int`. -/
def parseInt (text : List Char) : Option Int64 :=
  let (negative, ds) := acceptSign text
  let n : Int := if negative then -(numeralValue ds : Int) else numeralValue ds
  if ds = [] ∨ ds.all Char.isDigit = false then none
  else if n < -2 ^ 63 ∨ 2 ^ 63 ≤ n then none
  else some (.ofInt n)

/-- `null` leaves a string as it is. -/
def decodeString (field : Field) (old : GoString) : Json → Except DecodeError GoString
  | .str s => .ok (utf8Encode s)
  | .null => .ok old
  | _ => .error (.mismatch (lit field.tag))

def decodeInt (field : Field) (old : Int64) : Json → Except DecodeError Int64
  | .num text =>
    match parseInt text with
    | some n => .ok n
    | none => .error (.mismatch (lit field.tag))
  | .null => .ok old
  | _ => .error (.mismatch (lit field.tag))

/-- An object adds its members to a map that is there already. -/
def decodeMap (field : Field) (old : GoMap GoString GoString) :
    Json → Except DecodeError (GoMap GoString GoString)
  | .obj ms => ms.foldlM (fun es m =>
      (decodeString field [] m.2).map fun s => es.insert (utf8Encode m.1) s) old
  | .null => .ok ∅
  | _ => .error (.mismatch (lit field.tag))

def decodePointer (field : Field) : Json → Except DecodeError (Option GoString)
  | .null => .ok none
  | v => (decodeString field [] v).map some

def store (req : WireRequest) (field : Field) (v : Json) : Except DecodeError WireRequest :=
  match field with
  | .requestID => (decodeString field req.requestID v).map fun s => { req with requestID := s }
  | .url => (decodeString field req.url v).map fun s => { req with url := s }
  | .method => (decodeString field req.method v).map fun s => { req with method := s }
  | .headers => (decodeMap field req.headers v).map fun es => { req with headers := es }
  | .body => (decodePointer field v).map fun b => { req with body := b }
  | .proxyMode => (decodeString field req.proxyMode v).map fun s => { req with proxyMode := s }
  | .timeoutSeconds =>
    (decodeInt field req.timeoutSeconds v).map fun n => { req with timeoutSeconds := n }

/-- One member of the object, with unknown fields disallowed. -/
def decodeMember (req : WireRequest) (m : List Char × Json) : Except DecodeError WireRequest :=
  match findField m.1 with
  | none => .error (.unknownField (utf8Encode m.1))
  | some field => store req field m.2

def zeroRequest : WireRequest where
  url := []
  method := []
  body := none
  proxyMode := []
  requestID := []
  headers := ∅
  timeoutSeconds := 0

/-- The decoder goes on after an error and returns the first one, so the model stops there. -/
def decodeValue : Json → Except DecodeError WireRequest
  | .obj ms => ms.foldlM decodeMember zeroRequest
  | .null => .ok zeroRequest
  | _ => .error (.mismatch [])

/-- The nesting at which the scanner of package `json` gives up. -/
def maxNestingDepth : Nat := 10000

/-- `Decode` on a text; what follows the first value is not looked at. -/
def decodeJSON (data : GoString) : Except DecodeError WireRequest :=
  match Json.parseValue maxNestingDepth (runes data) with
  | none => .error .malformed
  | some (v, _) => decodeValue v

end Decode

section Text

theorem literalRunes_encode (c : Char) (s : GoString) (n : Nat) :
    Json.literalRunes (n + 1) (String.utf8EncodeChar c ++ s) =
      Json.escape c ++ Json.literalRunes n s := by
  obtain ⟨b, t, ht, hd, hs⟩ := encode_cons c s
  rw [ht, Json.literalRunes, hd]
  simp only [hs]

theorem literalRunes_utf8Encode (cs : List Char) (n : Nat) (hn : (utf8Encode cs).length ≤ n) :
    Json.literalRunes n (utf8Encode cs) = cs.flatMap Json.escape := by
  induction cs generalizing n with
  | nil => cases n <;> rfl
  | cons c cs ih =>
    have hp := c.utf8Size_pos
    rw [utf8Encode_cons, List.length_append, String.length_utf8EncodeChar] at hn
    obtain ⟨m, rfl⟩ : ∃ m, n = m + 1 := ⟨n - 1, by omega⟩
    rw [utf8Encode_cons, literalRunes_encode, ih m (by omega), List.flatMap_cons]

theorem appendString_eq (h : ValidUTF8 s) :
    appendString s = utf8Encode (Json.printString (runes s)) := by
  obtain ⟨cs, rfl⟩ := validUTF8_iff.1 h
  rw [appendString, Json.literal, literalRunes_utf8Encode cs _ le_rfl, runes_utf8Encode,
    Json.printString]

theorem utf8Encode_join (hc : String.utf8EncodeChar c = [b]) (ts : List (List Char)) :
    utf8Encode (Json.join c ts) = Json.join b (ts.map utf8Encode) := by
  induction ts with
  | nil => rfl
  | cons t ts ih =>
    cases ts with
    | nil => rfl
    | cons u us =>
      rw [Json.join, utf8Encode_append, utf8Encode_cons, hc, ih]
      rfl

theorem appendObject_eq (ms : List (List Char × Json)) :
    appendObject (ms.map fun m => (utf8Encode m.1, utf8Encode m.2.print)) =
      utf8Encode (Json.obj ms).print := by
  have htext : ∀ m : List Char × Json,
      appendString (utf8Encode m.1) ++ ch ':' :: utf8Encode m.2.print =
        utf8Encode (Json.printMember m) := by
    intro m
    rw [appendString_eq (validUTF8_utf8Encode m.1), runes_utf8Encode, Json.printMember,
      utf8Encode_append, utf8Encode_cons]
    rfl
  rw [Json.print, Json.printMembers_eq, utf8Encode_cons, utf8Encode_append,
    utf8Encode_join (b := ch ',') (by decide), appendObject, List.map_map, List.map_map]
  simp only [Function.comp_def, htext]
  rfl

/-- The JSON value that a value of a field stands for. -/
def Value.json : Value → Json
  | .string s => .str (runes s)
  | .strings es => .obj (es.map fun e => (runes e.1, .str (runes e.2)))
  | .int n => .num (toString n.toInt).toList

/-- The strings of a value are valid UTF-8. -/
def Value.Valid : Value → Prop
  | .string s => ValidUTF8 s
  | .strings es => ∀ e ∈ es, ValidUTF8 e.1 ∧ ValidUTF8 e.2
  | .int _ => True

theorem Value.Valid.encode {v : Value} (h : v.Valid) : v.encode = utf8Encode v.json.print := by
  cases v with
  | string s =>
    rw [Value.encode, Value.json, Json.print]
    exact appendString_eq h
  | strings es =>
    rw [Value.encode, Value.json, ← appendObject_eq, List.map_map]
    congr 1
    apply List.map_congr_left
    intro e he
    rw [Function.comp_apply, Json.print, ← appendString_eq (h e he).2]
    exact congrArg (·, _) (h e he).1.symm
  | int n =>
    rw [Value.encode, Value.json, Json.print, itoa, lit_eq]

end Text

/-- The strings beside the body are valid UTF-8. -/
structure WireRequest.ValidStrings (req : WireRequest) : Prop where
  requestID : ValidUTF8 req.requestID
  url : ValidUTF8 req.url
  method : ValidUTF8 req.method
  headers : ∀ k s, req.headers[k]? = some s → ValidUTF8 k ∧ ValidUTF8 s
  proxyMode : ValidUTF8 req.proxyMode

/-- All strings are valid UTF-8. -/
structure WireRequest.Valid (req : WireRequest) : Prop extends req.ValidStrings where
  body : ∀ b ∈ req.body, ValidUTF8 b

section RoundTrip

variable {r req : WireRequest}

theorem value_requestID (hv : req.value .requestID = some v) : v = .string req.requestID := by
  rw [WireRequest.value, Option.ite_none_left_eq_some] at hv
  exact (Option.some.inj hv.2).symm

theorem value_headers (hv : req.value .headers = some v) : v = .strings req.headers.toList := by
  rw [WireRequest.value, Option.ite_none_left_eq_some] at hv
  exact (Option.some.inj hv.2).symm

theorem WireRequest.Valid.value (h : req.Valid) (hv : req.value f = some v) : v.Valid := by
  cases f with
  | requestID =>
    cases value_requestID hv
    exact h.requestID
  | headers =>
    cases value_headers hv
    intro e he
    exact h.headers e.1 e.2 (GoMap.mem_toList.1 he)
  | body =>
    obtain ⟨b, hb, rfl⟩ := Option.map_eq_some_iff.1 hv
    exact h.body b hb
  | url =>
    cases hv
    exact h.url
  | method =>
    cases hv
    exact h.method
  | proxyMode =>
    cases hv
    exact h.proxyMode
  | timeoutSeconds =>
    cases hv
    exact trivial

theorem acceptSign_digits {ds : List Char} (h : ∀ c ∈ ds, c.isDigit = true) :
    acceptSign ds = (false, ds) := by
  cases ds with
  | nil => rfl
  | cons c ds =>
    have hc := h c List.mem_cons_self
    have hp : c ≠ '+' := by
      rintro rfl
      exact absurd hc (by decide)
    have hm : c ≠ '-' := by
      rintro rfl
      exact absurd hc (by decide)
    rw [acceptSign, if_neg hp, if_neg hm]

theorem numeralValue_toDigits (n : Nat) : numeralValue (Nat.toDigits 10 n) = n := by
  have hdigits := Nat.ofDigitChars_ten_toDigits (n := n)
  rw [Nat.ofDigitChars_eq_foldl] at hdigits
  rw [numeralValue, ofDigits, List.foldl_map]
  simp only [mul_comm _ 10]
  exact hdigits

theorem parseInt_of_sign {ds : List Char} {n : Int64} (hs : acceptSign text = (negative, ds))
    (hne : ds ≠ []) (hd : ∀ c ∈ ds, c.isDigit = true)
    (hn : (if negative then -(numeralValue ds : Int) else numeralValue ds) = n.toInt) :
    parseInt text = some n := by
  have hlo := n.le_toInt
  have hhi := n.toInt_lt
  have hall : ds.all Char.isDigit = true := List.all_eq_true.2 hd
  simp only [parseInt, hs, hn, hne, hall]
  rw [if_neg (by simp), if_neg (by omega), Int64.ofInt_toInt]

theorem parseInt_toString (n : Int64) : parseInt (toString n.toInt).toList = some n := by
  have hd : ∀ m, ∀ c ∈ Nat.toDigits 10 m, c.isDigit = true := by
    intro m c hc
    exact Nat.isDigit_of_mem_toDigits (by decide) (by decide) hc
  cases hn : n.toInt with
  | ofNat m =>
    rw [Int.ofNat_eq_natCast, Json.toList_toString_ofNat]
    apply parseInt_of_sign (acceptSign_digits (hd m)) Nat.toDigits_ne_nil (hd m)
    rw [if_neg (by decide), numeralValue_toDigits, hn]
    rfl
  | negSucc m =>
    have hs : acceptSign ('-' :: Nat.toDigits 10 (m + 1)) = (true, Nat.toDigits 10 (m + 1)) := rfl
    rw [Json.toList_toString_negSucc]
    apply parseInt_of_sign hs Nat.toDigits_ne_nil (hd (m + 1))
    rw [if_pos rfl, numeralValue_toDigits, hn]
    rfl

theorem findField_tag (f : Field) : findField f.tag.toList = some f := by
  cases f <;> decide

/-- The request `r` with one field of `req`. -/
def WireRequest.copy (r req : WireRequest) : Field → WireRequest
  | .requestID => { r with requestID := req.requestID }
  | .url => { r with url := req.url }
  | .method => { r with method := req.method }
  | .headers => { r with headers := req.headers }
  | .body => { r with body := req.body }
  | .proxyMode => { r with proxyMode := req.proxyMode }
  | .timeoutSeconds => { r with timeoutSeconds := req.timeoutSeconds }

/-- The field has not been set yet. -/
def WireRequest.Fresh (r : WireRequest) (f : Field) : Prop := r.copy zeroRequest f = r

theorem WireRequest.copy_comm (r req req' : WireRequest) (hne : f ≠ g) :
    (r.copy req g).copy req' f = (r.copy req' f).copy req g := by
  cases f <;> cases g <;> first | rfl | exact absurd rfl hne

theorem WireRequest.Fresh.copy (h : r.Fresh f) (hne : f ≠ g) : (r.copy req g).Fresh f := by
  rw [WireRequest.Fresh, WireRequest.copy_comm r req zeroRequest hne, h]

theorem ValidUTF8.encode_runes (h : ValidUTF8 s) : utf8Encode (runes s) = s := h

theorem decodeMap_entries {es : List (GoString × GoString)}
    (h : ∀ e ∈ es, ValidUTF8 e.1 ∧ ValidUTF8 e.2) (old : GoMap GoString GoString) (f : Field) :
    decodeMap f old (Value.strings es).json = .ok (old.insertAll es) := by
  induction es generalizing old with
  | nil => rfl
  | cons e es ih =>
    obtain ⟨hk, hs⟩ := h e List.mem_cons_self
    have hstep : (decodeString f [] (.str (runes e.2))).map
        (fun s => old.insert (utf8Encode (runes e.1)) s) = .ok (old.insert e.1 e.2) := by
      rw [decodeString, hk.encode_runes, hs.encode_runes]
      rfl
    have hrest := ih (fun e' he' => h e' (List.mem_cons_of_mem e he')) (old.insert e.1 e.2)
    rw [Value.json, decodeMap] at hrest ⊢
    rw [List.map_cons, List.foldlM_cons, hstep]
    exact hrest

theorem decodeString_runes (h : ValidUTF8 s) (f : Field) (old : GoString) :
    decodeString f old (.str (runes s)) = .ok s := by
  rw [decodeString, h.encode_runes]

theorem store_value (hv : req.value f = some v) (hvalid : v.Valid) (hf : r.Fresh f) :
    store r f v.json = .ok (r.copy req f) := by
  cases f with
  | requestID =>
    cases value_requestID hv
    rw [store, Value.json, decodeString_runes hvalid]
    rfl
  | url =>
    cases hv
    rw [store, Value.json, decodeString_runes hvalid]
    rfl
  | method =>
    cases hv
    rw [store, Value.json, decodeString_runes hvalid]
    rfl
  | headers =>
    cases value_headers hv
    -- the decoder adds to a map that is there, so it must start from none
    have hold : r.headers = ∅ := by
      rw [← hf]
      rfl
    rw [store, decodeMap_entries hvalid, hold, GoMap.insertAll_toList]
    rfl
  | body =>
    obtain ⟨b, hb, rfl⟩ := Option.map_eq_some_iff.1 hv
    have hs := decodeString_runes hvalid .body []
    simp only [store, Value.json, decodePointer, hs, WireRequest.copy, hb]
    rfl
  | proxyMode =>
    cases hv
    rw [store, Value.json, decodeString_runes hvalid]
    rfl
  | timeoutSeconds =>
    cases hv
    simp only [store, Value.json, decodeInt, parseInt_toString]
    rfl

theorem copy_of_none (hv : req.value f = none) (hf : r.Fresh f) : r.copy req f = r := by
  cases f with
  | requestID =>
    have he : req.requestID = [] := by
      by_contra hne
      rw [WireRequest.value, if_neg hne] at hv
      cases hv
    rw [WireRequest.copy, he]
    exact hf
  | headers =>
    have he : req.headers.toList = [] := by
      by_contra hne
      rw [WireRequest.value, if_neg hne] at hv
      cases hv
    have hempty : req.headers = ∅ := by
      rw [← GoMap.insertAll_toList req.headers, he]
      rfl
    rw [WireRequest.copy, hempty]
    exact hf
  | body =>
    rw [WireRequest.copy, Option.map_eq_none_iff.1 hv]
    exact hf
  | url => cases hv
  | method => cases hv
  | proxyMode => cases hv
  | timeoutSeconds => cases hv

def WireRequest.json (req : WireRequest) : Json :=
  .obj (req.fields.map fun m => (m.1.tag.toList, m.2.json))

theorem decode_fields (hvalid : req.Valid) {fs : List Field}
    (hn : fs.Nodup) (hf : ∀ f ∈ fs, r.Fresh f) :
    ((fs.filterMap fun f => (req.value f).map fun v => (f, v)).map fun m =>
      (m.1.tag.toList, m.2.json)).foldlM decodeMember r =
      .ok (fs.foldl (fun r f => r.copy req f) r) := by
  induction fs generalizing r with
  | nil => rfl
  | cons f fs ih =>
    obtain ⟨hnot, hn⟩ := List.nodup_cons.1 hn
    -- no field comes twice, so the later ones still have their zero values
    have hfresh : ∀ g ∈ fs, (r.copy req f).Fresh g := by
      intro g hg
      apply (hf g (List.mem_cons_of_mem f hg)).copy
      rintro rfl
      exact hnot hg
    have hrest := ih hn hfresh
    rw [List.foldl_cons]
    cases hv : req.value f with
    | none =>
      rw [List.filterMap_cons_none (by rw [hv]; rfl)]
      rw [copy_of_none hv (hf f List.mem_cons_self)] at hrest ⊢
      exact hrest
    | some v =>
      have hstep : decodeMember r (f.tag.toList, v.json) = .ok (r.copy req f) := by
        rw [decodeMember, findField_tag]
        exact store_value hv (hvalid.value hv) (hf f List.mem_cons_self)
      rw [List.filterMap_cons_some (b := (f, v)) (by rw [hv]; rfl), List.map_cons,
        List.foldlM_cons, hstep]
      exact hrest

theorem decodeValue_json (hvalid : req.Valid) :
    decodeValue req.json = .ok req := by
  have hn : Field.all.Nodup := by decide
  have hf : ∀ f ∈ Field.all, zeroRequest.Fresh f := by
    intro f _
    cases f <;> rfl
  exact decode_fields hvalid hn hf

theorem Value.wellFormed (v : Value) (depth : Nat) : Json.WellFormed (depth + 1) v.json := by
  cases v with
  | string s => exact .str
  | strings es =>
    apply Json.WellFormed.obj
    intro m hm
    obtain ⟨e, _, rfl⟩ := List.mem_map.1 hm
    exact .str
  | int n => exact .num (Json.isNumber_toString n.toInt)

theorem marshal_eq (hvalid : req.Valid) :
    req.marshal = utf8Encode req.json.print := by
  rw [WireRequest.marshal, WireRequest.json, ← appendObject_eq, List.map_map]
  congr 1
  apply List.map_congr_left
  intro m hm
  obtain ⟨f, _, hm⟩ := List.mem_filterMap.1 hm
  obtain ⟨v, hv, rfl⟩ := Option.map_eq_some_iff.1 hm
  rw [Function.comp_apply, ← (hvalid.value hv).encode, ← lit_eq]

/-- A request with valid strings is read back from its text. -/
theorem decodeJSON_marshal (hvalid : req.Valid) :
    decodeJSON req.marshal = .ok req := by
  have hwf : Json.WellFormed (9999 + 1) req.json := by
    apply Json.WellFormed.obj
    intro m hm
    obtain ⟨m', _, rfl⟩ := List.mem_map.1 hm
    exact m'.2.wellFormed 9998
  have hparse := hwf.parseValue_print [] (by simp [Json.Follows])
  rw [List.append_nil] at hparse
  rw [decodeJSON, marshal_eq hvalid, runes_utf8Encode, maxNestingDepth, hparse]
  exact decodeValue_json hvalid

end RoundTrip

section Strings

variable {r req : WireRequest}

theorem foldlM_keeps {P : β → Prop} {f : β → α → Except ε β} {xs : List α}
    (hstep : ∀ b x b', P b → f b x = .ok b' → P b') (hb : P b) (h : xs.foldlM f b = .ok b') :
    P b' := by
  induction xs generalizing b with
  | nil =>
    cases h
    exact hb
  | cons x xs ih =>
    rw [List.foldlM_cons] at h
    obtain ⟨b₁, h₁, h⟩ := bind_eq_ok h
    exact ih (hstep b x b₁ hb h₁) h

theorem decodeString_valid (h : decodeString f old v = .ok s) (ho : ValidUTF8 old) :
    ValidUTF8 s := by
  cases v with
  | str cs =>
    cases h
    exact validUTF8_utf8Encode cs
  | null =>
    cases h
    exact ho
  | bool _ => cases h
  | num _ => cases h
  | arr _ => cases h
  | obj _ => cases h

theorem decodeMap_valid {old es : GoMap GoString GoString} (h : decodeMap f old v = .ok es)
    (ho : ∀ k s, old[k]? = some s → ValidUTF8 k ∧ ValidUTF8 s) :
    ∀ k s, es[k]? = some s → ValidUTF8 k ∧ ValidUTF8 s := by
  cases v with
  | obj ms =>
    refine foldlM_keeps (P := fun es : GoMap GoString GoString =>
      ∀ k s, es[k]? = some s → ValidUTF8 k ∧ ValidUTF8 s) ?_ ho h
    intro es m es' hes hm k s hk
    obtain ⟨s', hs', rfl⟩ := map_eq_ok hm
    rw [GoMap.get_insert] at hk
    split at hk
    · rename_i hkey
      cases hk
      rw [← hkey]
      exact ⟨validUTF8_utf8Encode m.1, decodeString_valid hs' IsASCII.nil.validUTF8⟩
    · exact hes k s hk
  | null =>
    cases h
    intro k s hk
    rw [GoMap.get_empty] at hk
    cases hk
  | bool _ => cases h
  | num _ => cases h
  | str _ => cases h
  | arr _ => cases h

theorem decodePointer_valid (h : decodePointer f v = .ok b) : ∀ s ∈ b, ValidUTF8 s := by
  cases v with
  | null =>
    cases h
    rintro s ⟨⟩
  | str cs =>
    cases h
    rintro s ⟨rfl⟩
    exact validUTF8_utf8Encode cs
  | bool _ => cases h
  | num _ => cases h
  | arr _ => cases h
  | obj _ => cases h

theorem store_valid (hr : r.Valid) (h : store r f v = .ok req) : req.Valid := by
  cases f with
  | requestID =>
    obtain ⟨s, hs, rfl⟩ := map_eq_ok h
    exact { hr with requestID := decodeString_valid hs hr.requestID }
  | url =>
    obtain ⟨s, hs, rfl⟩ := map_eq_ok h
    exact { hr with url := decodeString_valid hs hr.url }
  | method =>
    obtain ⟨s, hs, rfl⟩ := map_eq_ok h
    exact { hr with method := decodeString_valid hs hr.method }
  | headers =>
    obtain ⟨es, hes, rfl⟩ := map_eq_ok h
    exact { hr with headers := decodeMap_valid hes hr.headers }
  | body =>
    obtain ⟨b, hb, rfl⟩ := map_eq_ok h
    exact { hr with body := decodePointer_valid hb }
  | proxyMode =>
    obtain ⟨s, hs, rfl⟩ := map_eq_ok h
    exact { hr with proxyMode := decodeString_valid hs hr.proxyMode }
  | timeoutSeconds =>
    obtain ⟨n, _, rfl⟩ := map_eq_ok h
    exact { hr with }

theorem zeroRequest_valid : zeroRequest.Valid where
  requestID := IsASCII.nil.validUTF8
  url := IsASCII.nil.validUTF8
  method := IsASCII.nil.validUTF8
  proxyMode := IsASCII.nil.validUTF8
  headers := by
    intro k s hk
    rw [zeroRequest, GoMap.get_empty] at hk
    cases hk
  body := by
    rintro b ⟨⟩

/-- The decoder makes no invalid strings. -/
theorem decodeValue_valid (h : decodeValue v = .ok req) : req.Valid := by
  cases v with
  | obj ms =>
    refine foldlM_keeps ?_ zeroRequest_valid h
    intro r m r' hr hm
    rw [decodeMember] at hm
    cases hf : findField m.1 with
    | none =>
      rw [hf] at hm
      cases hm
    | some f =>
      rw [hf] at hm
      exact store_valid hr hm
  | null =>
    cases h
    exact zeroRequest_valid
  | bool _ => cases h
  | num _ => cases h
  | str _ => cases h
  | arr _ => cases h

theorem decodeJSON_valid (h : decodeJSON data = .ok req) : req.Valid := by
  rw [decodeJSON] at h
  cases hp : Json.parseValue maxNestingDepth (runes data) with
  | none =>
    rw [hp] at h
    cases h
  | some p =>
    rw [hp] at h
    exact decodeValue_valid h

end Strings

end HyruleProxy
