import HyruleProxy.HeaderKeys
import HyruleProxy.Trim

namespace HyruleProxy
set_option autoImplicit true

/-- The runes of `unicode.IsSpace`. -/
def spaceRunes : List Char :=
  ['\t', '\n', '\x0b', '\x0c', '\r', ' ', '\u0085', '\u00a0', '\u1680', '\u2000', '\u2001',
    '\u2002', '\u2003', '\u2004', '\u2005', '\u2006', '\u2007', '\u2008', '\u2009', '\u200a',
    '\u2028', '\u2029', '\u202f', '\u205f', '\u3000']

def spaceTexts : List GoString := spaceRunes.map String.utf8EncodeChar

/-- The model of `strings.TrimSpace` on any bytes: those that are no UTF-8 are no spaces. -/
def trimSpaces (s : GoString) : GoString := trimBoth spaceTexts s

/-- A request as a server has read it; `path` is the escaped path of its URL. -/
structure HTTPRequest (β : Type) where
  method : GoString
  path : GoString
  header : List (GoString × GoString)
  body : β

/-- `Header.Get`: the first value under the key, or the empty string. -/
def headerGet (header : List (GoString × GoString)) (key : GoString) : GoString :=
  ((header.find? fun h => canonicalMIMEHeaderKey h.1 = key).map Prod.snd).getD []

/-- The check of `withAuth` in both servers. The comparison of the tokens takes constant time. -/
def bearerOK (token auth : GoString) : Bool :=
  hasPrefix auth (lit "Bearer ") && decide (trimSpaces (auth.drop (lit "Bearer ").length) = token)

def HTTPRequest.authorized (r : HTTPRequest β) (token : GoString) : Bool :=
  bearerOK token (headerGet r.header (lit "Authorization"))

theorem selfSynchronising_encode (cs : List Char) :
    SelfSynchronising (cs.map String.utf8EncodeChar) := by
  refine ⟨⟨?_, ?_⟩, ?_⟩
  · intro w hw
    obtain ⟨c, _, rfl⟩ := List.mem_map.1 hw
    exact utf8EncodeChar_ne_nil c
  · intro w hw v hv hp
    obtain ⟨c, _, rfl⟩ := List.mem_map.1 hw
    obtain ⟨d, _, rfl⟩ := List.mem_map.1 hv
    obtain ⟨t, ht⟩ := hp
    have hc := decodeRune_encode c t
    have hd := decodeRune_encode d []
    rw [ht] at hc
    rw [List.append_nil, hc, Option.some_inj] at hd
    rw [hd]
  · intro w hw v hv a ha hm
    obtain ⟨c, _, rfl⟩ := List.mem_map.1 hw
    obtain ⟨d, _, rfl⟩ := List.mem_map.1 hv
    obtain ⟨t, ht⟩ := List.head?_eq_some_iff.1 ha
    have hencode : utf8Encode [d] = a :: t := by
      rw [utf8Encode_cons, ht]
      exact List.append_nil _
    have hfirst := utf8Encode_firstByte hencode
    obtain ⟨p, q, hpq⟩ := List.append_of_mem hm
    obtain ⟨b, s, hs⟩ := List.exists_cons_of_ne_nil (utf8EncodeChar_ne_nil c)
    rw [hs, List.tail_cons] at hpq
    rw [hpq, ← List.cons_append] at hs
    cases utf8EncodeChar_split hs hfirst

/-- The headers that pass: the token between blanks, and none at all if the token itself has blanks
at its ends. -/
theorem bearerOK_iff : bearerOK token auth = true ↔ Trimmed spaceTexts token ∧
    ∃ l r, Blank spaceTexts l ∧ Blank spaceTexts r ∧
      auth = lit "Bearer " ++ (l ++ (token ++ r)) := by
  rw [bearerOK, Bool.and_eq_true, decide_eq_true_eq, hasPrefix, List.isPrefixOf_iff_prefix,
    trimSpaces, spaceTexts, (selfSynchronising_encode spaceRunes).trimBoth_eq_iff]
  constructor
  · rintro ⟨⟨u, rfl⟩, ht, l, r, hl, hr, he⟩
    rw [List.drop_left] at he
    exact ⟨ht, l, r, hl, hr, by rw [he]⟩
  · rintro ⟨ht, l, r, hl, hr, rfl⟩
    exact ⟨List.prefix_append _ _, ht, l, r, hl, hr, List.drop_left⟩

end HyruleProxy
