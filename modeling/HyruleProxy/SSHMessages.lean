import HyruleProxy.PrefixCode
import HyruleProxy.Allowlist
import HyruleProxy.Dialer
import HyruleProxy.RequestCodec

namespace HyruleProxy
set_option autoImplicit true

open PrefixCode

/-- A global request of a client. -/
structure GlobalRequest where
  type : GoString
  wantReply : Bool
  payload : GoString

/-- The payload of a `tcpip-forward` request. -/
structure ForwardRequest where
  addr : GoString
  port : UInt32
  deriving DecidableEq

/-- The RFC 4254 `forwarded-tcpip` payload of a channel open. -/
structure ForwardedTCPPayload where
  addr : GoString
  port : UInt32
  originAddr : GoString
  originPort : UInt32
  deriving DecidableEq

section Codes

/-- What the daemon relies on in `gossh.Marshal` and `gossh.Unmarshal` for one kind of message: the
values in `range` come back from their bytes, and no others are read. -/
structure MessageCode (α : Type) (range : α → Prop) where
  marshal : α → GoString
  unmarshal : GoString → Option α
  unmarshal_marshal : ∀ a, range a → unmarshal (marshal a) = some a
  range_of_unmarshal : ∀ s a, unmarshal s = some a → range a

/-- The package's code of the three messages. The length of a string takes 32 bits. -/
structure Marshalling where
  forwardRequest : MessageCode ForwardRequest fun r => r.addr.length < 2 ^ 32
  forwardedTCPPayload : MessageCode ForwardedTCPPayload fun r =>
    r.addr.length < 2 ^ 32 ∧ r.originAddr.length < 2 ^ 32
  port : MessageCode UInt32 fun _ => True

/-- A code of prefixes that is read to the end of the message. -/
def PrefixCode.message {valid : α → Prop} (c : PrefixCode α) (h : ∀ a, c.range a ↔ valid a) :
    MessageCode α valid where
  marshal := c.write
  unmarshal := c.decode
  unmarshal_marshal a ha := decode_eq_some.2 ⟨(h a).2 ha, rfl⟩
  range_of_unmarshal _ a hs := (h a).1 (decode_eq_some.1 hs).1

/-- The layout of RFC 4254: a string stands after its length. -/
def rfc4254 : Marshalling where
  forwardRequest := PrefixCode.message
    (((sized 4).pair uint32).along (fun p => ⟨p.1, p.2⟩) (fun r => (r.addr, r.port))
      (fun _ => rfl) fun _ _ => rfl)
    fun _ => ⟨fun h => h.1, fun h => ⟨h, range_uint32 _⟩⟩
  forwardedTCPPayload := PrefixCode.message
    ((((sized 4).pair uint32).pair ((sized 4).pair uint32)).along
      (fun p => ⟨p.1.1, p.1.2, p.2.1, p.2.2⟩)
      (fun r => ((r.addr, r.port), r.originAddr, r.originPort)) (fun _ => rfl) fun _ _ => rfl)
    fun _ => ⟨fun h => ⟨h.1.1, h.2.1⟩, fun h => ⟨⟨h.1, range_uint32 _⟩, h.2, range_uint32 _⟩⟩
  port := PrefixCode.message uint32 fun _ => ⟨fun _ => trivial, fun _ => range_uint32 _⟩

end Codes

section Origin

/-- The model of `strconv.Atoi`. -/
def atoi (s : GoString) : Option Int := (parseInt (runes s)).map Int64.toInt

theorem atoi_itoa (n : Int64) : atoi (itoa n.toInt) = some n.toInt := by
  rw [atoi, itoa, lit_eq, runes_utf8Encode, parseInt_toString, Option.map_some]

theorem toNat_ofInt {n : Nat} (h : n < 2 ^ 32) : (UInt32.ofInt n).toNat = n := by
  simp only [UInt32.ofInt, UInt32.toNat_ofNat']
  omega

theorem digit_of_mem_itoa {n : Nat} (h : b ∈ itoa n) : ch '0' ≤ b ∧ b ≤ ch '9' := by
  rw [itoa, lit_eq, Json.toList_toString_ofNat, utf8Encode, List.mem_flatMap] at h
  obtain ⟨c, hc, hb⟩ := h
  have hd := Nat.isDigit_of_mem_toDigits (by decide) (by decide) hc
  have hn : 48 ≤ c.toNat ∧ c.toNat ≤ 57 := by
    simpa [Char.isDigit, UInt32.le_iff_toNat_le] using hd
  have he := utf8EncodeChar_ascii (UInt8.ofNat c.toNat) (by
    rw [UInt8.lt_iff_toNat_lt, UInt8.toNat_ofNat']
    show c.toNat % 256 < 128
    omega)
  have hm : (UInt8.ofNat c.toNat).toNat = c.toNat := by
    rw [UInt8.toNat_ofNat']
    omega
  rw [hm, Char.ofNat_toNat] at he
  rw [he, List.mem_singleton] at hb
  rw [hb, UInt8.le_iff_toNat_le, UInt8.le_iff_toNat_le, hm]
  exact hn

theorem length_separated_le (sep : UInt8) {ts : List GoString} (h : ∀ t ∈ ts, t.length ≤ k) :
    (separated sep ts).length ≤ (k + 1) * ts.length := by
  induction ts with
  | nil => exact Nat.zero_le _
  | cons t ts ih =>
    have ht := h t List.mem_cons_self
    have hts := ih fun u hu => h u (List.mem_cons_of_mem t hu)
    cases ts with
    | nil =>
      rw [separated, List.length_singleton]
      omega
    | cons u ts =>
      rw [separated, List.length_append, List.length_cons, List.length_cons, Nat.mul_succ]
      omega

theorem length_octetText_le (o : List UInt8) : (octetText o).length ≤ 4 * o.length := by
  refine (length_separated_le (k := 3) _ ?_).trans_eq (by rw [List.length_map])
  intro t ht
  obtain ⟨x, _, rfl⟩ := List.mem_map.1 ht
  rw [appendDecimal, List.length_map, decDigits]
  split
  · simp
  · split <;> simp

theorem length_groupText_le (g : List UInt16) : (groupText g).length ≤ 5 * g.length := by
  refine (length_separated_le (k := 4) _ ?_).trans_eq (by rw [List.length_map])
  intro t ht
  obtain ⟨x, _, rfl⟩ := List.mem_map.1 ht
  rw [appendHex, List.length_map]
  exact (hexDigits_length _).2

theorem Addr.length_body_le (a : Addr) : a.body.length ≤ 42 := by
  cases a with
  | zero => decide
  | ip4 o =>
    have ho := length_octetText_le o.1
    rw [o.2] at ho
    exact ho.trans (by decide)
  | ip6 g zone =>
    rw [Addr.body]
    split
    · have ho := length_octetText_le (lowOctets g).1
      have hl : (lit "::ffff:").length = 7 := by decide
      rw [(lowOctets g).2] at ho
      rw [List.length_append, hl]
      omega
    · have hg := g.2
      rw [string6]
      split
      · have hl := length_groupText_le g.1
        omega
      · rename_i i l _
        have h₁ := length_groupText_le (g.1.take i)
        have h₂ := length_groupText_le (g.1.drop (i + (l + 1)))
        rw [List.length_take] at h₁
        rw [List.length_drop] at h₂
        rw [List.length_append, List.length_cons, List.length_cons]
        omega

/-- The address of a connection that a TCP listener accepts, a `*net.TCPAddr`. Only IPv6 sockets
have a zone, the name of an interface. -/
structure Peer where
  ip : List UInt8
  zone : GoString
  port : UInt16
  sized : ip.length = 4 ∨ ip.length = 16
  zoned : zone ≠ [] → to4 ip = none
  short : zone.length < 256

/-- The model of `net.IP.String` on an address of 4 or 16 bytes. -/
def ipString (ip : List UInt8) : GoString :=
  match to4 ip with
  | some p4 => ((mkIP4 p4).getD .zero).string
  | none => ((mkIP6 [] (sliceGroups ip)).getD .zero).string

namespace Peer

variable (p : Peer)

/-- What `RemoteAddr` returns, as far as `visitorIP` looks at it. -/
def remoteAddr : RemoteAddr := .tcp (some p.ip)

/-- The model of `(*net.TCPAddr).String`. -/
def text : GoString := joinHostPort (ipString p.ip ++ zoneText p.zone) (itoa p.port.toNat)

/-- The origin that `handleVisitor` sends; it ignores the errors of the two calls. -/
def origin : GoString × UInt32 :=
  match splitHostPort p.text with
  | .error _ => ([], 0)
  | .ok (host, port) => (host, UInt32.ofInt ((atoi port).getD 0))

/-- The address that the text stands for. -/
def addr : Addr :=
  match to4 p.ip with
  | some p4 => (mkIP4 p4).getD .zero
  | none => (mkIP6 p.zone (sliceGroups p.ip)).getD .zero

theorem length_sliceGroups (n : Nat) (s : List UInt8) (h : s.length = 2 * n) :
    (sliceGroups s).length = n := by
  induction n generalizing s with
  | zero =>
    rw [Nat.mul_zero, List.length_eq_zero_iff] at h
    subst h
    rfl
  | succ n ih =>
    match s, h with
    | a :: b :: s, h =>
      rw [sliceGroups, List.length_cons, ih s (by simp only [List.length_cons] at h; omega)]

theorem length_to4 {ip p4 : List UInt8} (h : to4 ip = some p4) : p4.length = 4 := by
  rw [to4] at h
  split at h
  · cases h
    assumption
  · split at h
    · rename_i hp
      cases h
      rw [List.length_drop, hp.1]
    · cases h

theorem addr_cases : (∃ o, p.zone = [] ∧ p.addr = .ip4 o ∧ ipString p.ip = (Addr.ip4 o).string) ∨
    ∃ g, p.addr = .ip6 g p.zone ∧ ipString p.ip = (Addr.ip6 g []).string := by
  cases h4 : to4 p.ip with
  | some p4 =>
    have hz : p.zone = [] := by
      by_contra hne
      rw [p.zoned hne] at h4
      cases h4
    refine .inl ⟨⟨p4, length_to4 h4⟩, hz, ?_, ?_⟩
    · simp only [addr, h4, mkIP4, length_to4 h4, dif_pos, Option.getD_some]
    · simp only [ipString, h4, mkIP4, length_to4 h4, dif_pos, Option.getD_some]
  | none =>
    have h16 : p.ip.length = 16 := by
      rcases p.sized with h | h
      · rw [to4, if_pos h] at h4
        cases h4
      · exact h
    have hg := length_sliceGroups 8 p.ip h16
    refine .inr ⟨⟨sliceGroups p.ip, hg⟩, ?_, ?_⟩
    · simp only [addr, h4, mkIP6, hg, dif_pos, Option.getD_some]
    · simp only [ipString, h4, mkIP6, hg, dif_pos, Option.getD_some]

theorem addr_spec : p.addr ≠ .zero ∧ p.addr.zone = p.zone ∧
    ipString p.ip ++ zoneText p.zone = p.addr.string := by
  rcases p.addr_cases with ⟨o, hz, ha, hs⟩ | ⟨g, ha, hs⟩
  · rw [ha, hs, hz]
    exact ⟨nofun, rfl, List.append_nil _⟩
  · rw [ha, hs]
    refine ⟨nofun, rfl, ?_⟩
    calc (Addr.ip6 g []).string ++ zoneText p.zone
        = (Addr.ip6 g []).body ++ [] ++ zoneText p.zone := rfl
      _ = (Addr.ip6 g p.zone).string := by rw [List.append_nil]; rfl

theorem notMem_itoa (n : Nat) (hb : ¬(ch '0' ≤ b ∧ b ≤ ch '9')) : b ∉ itoa n :=
  fun hm => hb (digit_of_mem_itoa hm)

/-- The origin is the address and the port of the visitor, in a form that reads back; a zone with
a bracket loses both. -/
theorem origin_cases : (NoBrackets p.zone ∧ p.origin = (p.addr.string, p.port.toUInt32)) ∨
    (¬NoBrackets p.zone ∧ p.origin = ([], 0)) := by
  obtain ⟨hne, hzone, htext⟩ := p.addr_spec
  have hlt : p.port.toNat < 2 ^ 16 := p.port.toNat_lt
  have hport : (Int64.ofInt p.port.toNat).toInt = p.port.toNat :=
    Int64.toInt_ofInt_of_le (by omega) (by omega)
  have hatoi : atoi (itoa p.port.toNat) = some (p.port.toNat : Int) := by
    rw [← hport, atoi_itoa, hport]
  have hcolon : ch ':' ∉ itoa p.port.toNat := notMem_itoa _ (by decide)
  by_cases hz : NoBrackets p.zone
  · have hs : Splits p.addr.string (itoa p.port.toNat) :=
      ⟨(noBrackets_string hne).2 (hzone ▸ hz),
        ⟨notMem_itoa _ (by decide), notMem_itoa _ (by decide)⟩,
        hcolon⟩
    refine .inl ⟨hz, ?_⟩
    rw [origin, text, htext, splitHostPort_joinHostPort hs]
    simp only [hatoi, Option.getD_some]
    rw [Prod.mk.injEq, ← UInt32.toNat_inj, toNat_ofInt (by omega)]
    exact ⟨rfl, (UInt16.toNat_toUInt32 _).symm⟩
  · have hzn : p.addr.zone ≠ [] := by
      intro he
      apply hz
      rw [← hzone, he]
      exact ⟨List.not_mem_nil, List.not_mem_nil⟩
    have hb : ¬NoBrackets p.addr.string := by
      rw [noBrackets_string hne, hzone]
      exact hz
    obtain ⟨e, he⟩ := splitHostPort_bracket (colon_mem_string _ hzn) hcolon hb
    refine .inr ⟨hz, ?_⟩
    rw [origin, text, htext, he]

theorem length_origin : p.origin.1.length < 2 ^ 32 := by
  rcases p.origin_cases with ⟨_, ho⟩ | ⟨_, ho⟩
  · obtain ⟨hne, hzone, _⟩ := p.addr_spec
    have hb := p.addr.length_body_le
    have hz := p.short
    rw [ho, Addr.string_eq hne, List.length_append, hzone, zoneText]
    split
    · rw [List.length_nil]
      omega
    · rw [List.length_cons]
      omega
  · rw [ho]
    decide

end Peer

end Origin

end HyruleProxy
