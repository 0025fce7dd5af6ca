import HyruleProxy.AuthLimiter
import HyruleProxy.Lease
import HyruleProxy.JsonText
import HyruleProxy.RFC3339
import HyruleProxy.RequestCodec

namespace HyruleProxy
set_option autoImplicit true

/-- The fields of a lease, in their order in the structure. -/
inductive LeaseField where
  | leaseID
  | token
  | allocatedPort
  | allowlistCIDRs
  | createdAt
  | expiresAt
  | status
  deriving DecidableEq

def LeaseField.tag : LeaseField → String
  | .leaseID => "lease_id"
  | .token => "token"
  | .allocatedPort => "allocated_port"
  | .allowlistCIDRs => "allowlist_cidrs"
  | .createdAt => "created_at"
  | .expiresAt => "expires_at"
  | .status => "status"

def LeaseField.all : List LeaseField :=
  [.leaseID, .token, .allocatedPort, .allowlistCIDRs, .createdAt, .expiresAt, .status]

def Status.text : Status → GoString
  | .active => lit "active"
  | .expired => lit "expired"
  | .revoked => lit "revoked"
  | .other text => text

def Status.ofText (text : GoString) : Status :=
  if text = lit "active" then .active
  else if text = lit "expired" then .expired
  else if text = lit "revoked" then .revoked
  else .other text

section Encode

/-- `MarshalJSON` of an instant in a zone that is `offset` seconds ahead; it refuses years without
four digits and zones a day or more away. -/
def marshalTime (t : Time) (offset : Int) : Option (List Char) :=
  let year := RFC3339.yearAt t offset
  if year < 0 ∨ 9999 < year then none
  else if 24 ≤ (offset.tdiv 60).natAbs / 60 then none
  else some ('"' :: (RFC3339.write t offset ++ ['"']))

/-- The zones in which the two instants of a lease stand. -/
structure Zones where
  createdAt : Int
  expiresAt : Int

def appendStrings (ss : List GoString) : GoString :=
  ch '[' :: (Json.join (ch ',') (ss.map appendString) ++ [ch ']'])

/-- What is written for a field; an empty allowlist is left out. -/
def Lease.fieldBytes (l : Lease) (z : Zones) : LeaseField → Option GoString
  | .leaseID => some (appendString l.leaseID)
  | .token => some (appendString l.token)
  | .allocatedPort => some (itoa l.allocatedPort)
  | .allowlistCIDRs => if l.allowlistCIDRs = [] then none else some (appendStrings l.allowlistCIDRs)
  | .createdAt => (marshalTime l.createdAt z.createdAt).map utf8Encode
  | .expiresAt => (marshalTime l.expiresAt z.expiresAt).map utf8Encode
  | .status => some (appendString l.status.text)

/-- `json.Marshal` of a lease, which fails with one of its instants. -/
def Lease.marshalBytes (l : Lease) (z : Zones) : Option GoString :=
  if (marshalTime l.createdAt z.createdAt).isNone ∨
      (marshalTime l.expiresAt z.expiresAt).isNone then
    none
  else
    some (appendObject (LeaseField.all.filterMap fun f =>
      (l.fieldBytes z f).map fun bytes => (lit f.tag, bytes)))

end Encode

section Decode

/-- A lease while it is decoded. A slice keeps the cells of its array when it gets shorter. -/
structure LeaseDraft where
  leaseID : List Char
  token : List Char
  allocatedPort : Int64
  cells : List (List Char)
  len : Nat
  createdAt : Time
  expiresAt : Time
  status : List Char

def LeaseDraft.zero : LeaseDraft := ⟨[], [], 0, [], 0, zeroTime, zeroTime, []⟩

/-- `null` leaves a string as it is. -/
def decodeRunes (old : List Char) : Json → Option (List Char)
  | .str s => some s
  | .null => some old
  | _ => none

def decodeInt64 (old : Int64) : Json → Option Int64
  | .num text => parseInt text
  | .null => some old
  | _ => none

/-- The elements are decoded into the cells of the array that is there. -/
def decodeCells : List (List Char) → List Json → Option (List (List Char))
  | cells, [] => some cells
  | cells, v :: vs => do
    let s ← decodeRunes (cells.headD []) v
    let rest ← decodeCells cells.tail vs
    return s :: rest

/-- `UnmarshalJSON` of an instant looks at the text between the quotes and undoes no escapes. -/
def unmarshalTime (old : Time) (text : List Char) : Json → Option Time
  | .null => some old
  | .str _ => RFC3339.read text.tail.dropLast
  | _ => none

def LeaseDraft.store (d : LeaseDraft) (text : List Char) (v : Json) : LeaseField → Option LeaseDraft
  | .leaseID => (decodeRunes d.leaseID v).map fun s => { d with leaseID := s }
  | .token => (decodeRunes d.token v).map fun s => { d with token := s }
  | .allocatedPort => (decodeInt64 d.allocatedPort v).map fun n => { d with allocatedPort := n }
  | .allowlistCIDRs =>
    match v with
    | .null => some { d with cells := [], len := 0 }
    | .arr [] => some { d with cells := [], len := 0 }
    | .arr vs =>
      (decodeCells d.cells vs).map fun cells => { d with cells := cells, len := vs.length }
    | _ => none
  | .createdAt => (unmarshalTime d.createdAt text v).map fun t => { d with createdAt := t }
  | .expiresAt => (unmarshalTime d.expiresAt text v).map fun t => { d with expiresAt := t }
  | .status => (decodeRunes d.status v).map fun s => { d with status := s }

/-- One member of the object; a key without a field is skipped. -/
def LeaseDraft.member (d : LeaseDraft) (m : List Char × List Char × Json) : Option LeaseDraft :=
  match LeaseField.all.find? fun f => foldName f.tag.toList = foldName m.1 with
  | none => some d
  | some f => d.store m.2.1 m.2.2 f

def LeaseDraft.finish (d : LeaseDraft) : LeaseJSON where
  leaseID := d.leaseID
  token := d.token
  allocatedPort := d.allocatedPort.toInt
  allowlistCIDRs := d.cells.take d.len
  createdAt := d.createdAt
  expiresAt := d.expiresAt
  status := .ofText (utf8Encode d.status)

/-- `json.Unmarshal` into a lease. A type that does not fit is an error at the end as well, so
only an object and `null` can be accepted, with blanks after them. -/
def unmarshalRow (data : GoString) : Option LeaseJSON :=
  match Json.skipSpace (runes data) with
  | [] => none
  | c :: cs =>
    if c = '{' then
      match Json.readSeq
        (Json.readEntry (Json.withText (Json.parseValue (maxNestingDepth - 1)))) '}' cs with
      | some (ms, rest) =>
        if Json.skipSpace rest = [] then (ms.foldlM LeaseDraft.member .zero).map LeaseDraft.finish
        else none
      | none => none
    else
      match Json.readLiteral (c :: cs) with
      | some (.null, rest) => if Json.skipSpace rest = [] then some LeaseDraft.zero.finish else none
      | _ => none

/-- What a value of the bucket is for `Open`. -/
def Row.ofBytes (data : GoString) : Row :=
  match unmarshalRow data with
  | some o => .object o
  | none => .malformed

end Decode

section Text

theorem appendStrings_literal (ss : List GoString) : appendStrings ss =
    utf8Encode ('[' :: (Json.join ',' (ss.map Json.literal) ++ [']'])) := by
  rw [appendStrings, utf8Encode_cons, utf8Encode_append,
    utf8Encode_join (b := ch ',') (by decide), List.map_map]
  rfl

theorem appendObject_entries (es : List (List Char × List Char × Json)) :
    appendObject (es.map fun e => (utf8Encode e.1, utf8Encode e.2.1)) =
      utf8Encode ('{' :: (Json.join ',' (es.map Json.entryText) ++ ['}'])) := by
  have htext : ∀ e : List Char × List Char × Json,
      appendString (utf8Encode e.1) ++ ch ':' :: utf8Encode e.2.1 =
        utf8Encode (Json.entryText e) := by
    intro e
    rw [appendString_eq (validUTF8_utf8Encode e.1), runes_utf8Encode, Json.entryText,
      utf8Encode_append, utf8Encode_cons]
    rfl
  rw [utf8Encode_cons, utf8Encode_append, utf8Encode_join (b := ch ',') (by decide), appendObject,
    List.map_map, List.map_map]
  simp only [Function.comp_def, htext]
  rfl

end Text

section RoundTrip

/-- A field with the text that is written for it and the value that the text stands for. -/
def Lease.fieldEntry (l : Lease) (z : Zones) : LeaseField → Option (List Char × Json)
  | .leaseID => some (Json.literal l.leaseID, .str (runes l.leaseID))
  | .token => some (Json.literal l.token, .str (runes l.token))
  | .allocatedPort =>
    some ((toString l.allocatedPort).toList, .num (toString l.allocatedPort).toList)
  | .allowlistCIDRs =>
    if l.allowlistCIDRs = [] then none
    else some ('[' :: (Json.join ',' (l.allowlistCIDRs.map Json.literal) ++ [']']),
      .arr (l.allowlistCIDRs.map fun c => .str (runes c)))
  | .createdAt => (marshalTime l.createdAt z.createdAt).map fun text =>
      (text, .str (RFC3339.write l.createdAt z.createdAt))
  | .expiresAt => (marshalTime l.expiresAt z.expiresAt).map fun text =>
      (text, .str (RFC3339.write l.expiresAt z.expiresAt))
  | .status => some (Json.literal l.status.text, .str (runes l.status.text))

theorem Lease.fieldBytes_eq (l : Lease) (z : Zones) (f : LeaseField) :
    l.fieldBytes z f = (l.fieldEntry z f).map fun e => utf8Encode e.1 := by
  cases f with
  | leaseID => rw [fieldBytes, fieldEntry, appendString, Option.map_some]
  | token => rw [fieldBytes, fieldEntry, appendString, Option.map_some]
  | allocatedPort => rw [fieldBytes, fieldEntry, itoa, lit_eq, Option.map_some]
  | allowlistCIDRs =>
    rw [fieldBytes, fieldEntry]
    split
    · rfl
    · rw [appendStrings_literal, Option.map_some]
  | createdAt => rw [fieldBytes, fieldEntry, Option.map_map]; rfl
  | expiresAt => rw [fieldBytes, fieldEntry, Option.map_map]; rfl
  | status => rw [fieldBytes, fieldEntry, appendString, Option.map_some]

theorem escape_textRune (h : RFC3339.IsTextRune c) : Json.escape c = [c] := by
  rcases h with h | h
  · have hn : 48 ≤ c.toNat ∧ c.toNat ≤ 57 := by
      simpa [Char.isDigit, UInt32.le_iff_toNat_le] using h
    have hc : c = Char.ofNat c.toNat := (Char.ofNat_toNat c).symm
    obtain ⟨h₁, h₂⟩ := hn
    generalize c.toNat = n at hc h₁ h₂
    subst hc
    interval_cases n <;> decide
  · simp only [List.mem_cons, List.not_mem_nil, or_false] at h
    rcases h with rfl | rfl | rfl | rfl | rfl | rfl <;> decide

theorem denotes_write (depth : Nat) (t offset : Int) :
    Json.Denotes depth ('"' :: (RFC3339.write t offset ++ ['"']))
      (.str (RFC3339.write t offset)) := by
  have hplain : (RFC3339.write t offset).flatMap Json.escape = RFC3339.write t offset := by
    rw [List.flatMap_congr (g := fun c => [c]) fun c hc =>
      escape_textRune (RFC3339.isTextRune_write hc)]
    exact List.flatMap_singleton' _
  have hw : Json.WellFormed depth (.str (RFC3339.write t offset)) := .str
  have hd := hw.denotes
  rwa [Json.print, Json.printString, hplain] at hd

theorem marshalTime_eq_some (h : marshalTime t offset = some text) :
    text = '"' :: (RFC3339.write t offset ++ ['"']) ∧
      (0 ≤ RFC3339.yearAt t offset ∧ RFC3339.yearAt t offset ≤ 9999) ∧
      (offset.tdiv 60).natAbs / 60 < 24 := by
  simp only [marshalTime] at h
  split at h
  · cases h
  · split at h
    · cases h
    · cases h
      exact ⟨rfl, by omega, by omega⟩

theorem Lease.denotes_fieldEntry {l : Lease} (depth : Nat) (h : l.fieldEntry z f = some e) :
    Json.Denotes (depth + 1) e.1 e.2 := by
  cases f with
  | leaseID =>
    cases h
    exact Json.denotes_literal _ _
  | token =>
    cases h
    exact Json.denotes_literal _ _
  | allocatedPort =>
    cases h
    have hw : Json.WellFormed (depth + 1) (.num (toString l.allocatedPort).toList) :=
      .num (Json.isNumber_toString l.allocatedPort)
    have hd := hw.denotes
    rwa [Json.print] at hd
  | allowlistCIDRs =>
    rw [fieldEntry, Option.ite_none_left_eq_some] at h
    cases h.2
    have hcells : ∀ x ∈ l.allowlistCIDRs.map fun c => (Json.literal c, Json.str (runes c)),
        Json.Denotes depth x.1 x.2 := by
      intro x hx
      obtain ⟨c, _, rfl⟩ := List.mem_map.1 hx
      exact Json.denotes_literal _ _
    have hd := Json.Denotes.arr hcells
    rwa [List.map_map, List.map_map] at hd
  | createdAt =>
    obtain ⟨text, ht, rfl⟩ := Option.map_eq_some_iff.1 h
    obtain ⟨rfl, _⟩ := marshalTime_eq_some ht
    exact denotes_write _ _ _
  | expiresAt =>
    obtain ⟨text, ht, rfl⟩ := Option.map_eq_some_iff.1 h
    obtain ⟨rfl, _⟩ := marshalTime_eq_some ht
    exact denotes_write _ _ _
  | status =>
    cases h
    exact Json.denotes_literal _ _

/-- The members of the object of a lease. -/
def Lease.entries (l : Lease) (z : Zones) : List (List Char × List Char × Json) :=
  LeaseField.all.filterMap fun f => (l.fieldEntry z f).map fun e => (f.tag.toList, e)

theorem Lease.marshalBytes_eq_some {l : Lease} (h : l.marshalBytes z = some data) :
    (∃ text, marshalTime l.createdAt z.createdAt = some text) ∧
    (∃ text, marshalTime l.expiresAt z.expiresAt = some text) ∧
    data = utf8Encode ('{' :: (Json.join ',' ((l.entries z).map Json.entryText) ++ ['}'])) := by
  rw [marshalBytes] at h
  split at h
  · cases h
  · rename_i hn
    simp only [not_or, Option.isNone_iff_eq_none, ← ne_eq, Option.ne_none_iff_exists'] at hn
    cases h
    refine ⟨hn.1, hn.2, ?_⟩
    rw [← appendObject_entries, entries, List.map_filterMap]
    congr 1
    apply List.filterMap_congr
    intro f _
    rw [fieldBytes_eq, Option.map_map, Option.map_map]
    simp only [Function.comp_def, lit_eq]

theorem find?_tag (f : LeaseField) :
    LeaseField.all.find? (fun g => foldName g.tag.toList = foldName f.tag.toList) = some f := by
  cases f <;> decide

theorem decodeCells_strings (ss : List GoString) :
    decodeCells [] (ss.map fun c => .str (runes c)) = some (ss.map runes) := by
  induction ss with
  | nil => rfl
  | cons c ss ih =>
    rw [List.map_cons, decodeCells]
    simp only [List.tail_nil, ih, decodeRunes, Option.bind_eq_bind, Option.bind_some, List.map_cons,
      Option.pure_def]

/-- An instant in a zone of whole minutes survives its text. -/
theorem unmarshalTime_marshalTime (h : marshalTime t offset = some text) (hm : offset % 60 = 0)
    (old : Time) : unmarshalTime old text (.str (RFC3339.write t offset)) = some t := by
  obtain ⟨rfl, hy, hz⟩ := marshalTime_eq_some h
  have hdiv : offset.tdiv 60 * 60 = offset := Int.tdiv_mul_cancel (Int.dvd_of_emod_eq_zero hm)
  rw [unmarshalTime, List.tail_cons, List.dropLast_concat]
  exact RFC3339.read_write hy hm (by omega)

/-- A lease as the codec can keep it: a port of an `int`, zones of whole minutes, and a status that
is its own text. -/
structure Lease.Storable (l : Lease) (z : Zones) : Prop where
  port : -2 ^ 63 ≤ l.allocatedPort ∧ l.allocatedPort < 2 ^ 63
  createdAt : z.createdAt % 60 = 0
  expiresAt : z.expiresAt % 60 = 0
  status : Status.ofText (toValidUTF8 l.status.text) = l.status

/-- What storing the members of a lease leaves in a draft. -/
def LeaseDraft.put (d : LeaseDraft) (l : Lease) : LeaseField → LeaseDraft
  | .leaseID => { d with leaseID := runes l.leaseID }
  | .token => { d with token := runes l.token }
  | .allocatedPort => { d with allocatedPort := .ofInt l.allocatedPort }
  | .allowlistCIDRs => { d with
      cells := l.allowlistCIDRs.map runes
      len := l.allowlistCIDRs.length }
  | .createdAt => { d with createdAt := l.createdAt }
  | .expiresAt => { d with expiresAt := l.expiresAt }
  | .status => { d with status := runes l.status.text }

theorem LeaseDraft.member_entry {l : Lease} (hl : l.Storable z) (h : l.fieldEntry z f = some e)
    (d : LeaseDraft) (hc : f = .allowlistCIDRs → d.cells = []) :
    d.member (f.tag.toList, e) = some (d.put l f) := by
  rw [member, find?_tag]
  cases f with
  | leaseID =>
    cases h
    rfl
  | token =>
    cases h
    rfl
  | allocatedPort =>
    cases h
    have hp : (Int64.ofInt l.allocatedPort).toInt = l.allocatedPort :=
      Int64.toInt_ofInt_of_le hl.port.1 hl.port.2
    have hparse := parseInt_toString (.ofInt l.allocatedPort)
    rw [hp] at hparse
    simp only [store, decodeInt64, hparse, Option.map_some, put]
  | allowlistCIDRs =>
    rw [Lease.fieldEntry, Option.ite_none_left_eq_some] at h
    obtain ⟨hne, he⟩ := h
    cases he
    obtain ⟨c, cs, hcs⟩ := List.exists_cons_of_ne_nil hne
    have hcells := decodeCells_strings l.allowlistCIDRs
    simp only [hcs, List.map_cons] at hcells ⊢
    simp only [store, hc rfl, hcells, Option.map_some, put, hcs, List.map_cons, List.length_cons,
      List.length_map]
  | createdAt =>
    obtain ⟨text, ht, rfl⟩ := Option.map_eq_some_iff.1 h
    simp only [store, unmarshalTime_marshalTime ht hl.createdAt, Option.map_some, put]
  | expiresAt =>
    obtain ⟨text, ht, rfl⟩ := Option.map_eq_some_iff.1 h
    simp only [store, unmarshalTime_marshalTime ht hl.expiresAt, Option.map_some, put]
  | status =>
    cases h
    rfl

theorem LeaseDraft.member_field {l : Lease} (hl : l.Storable z)
    (hcreated : marshalTime l.createdAt z.createdAt ≠ none)
    (hexpires : marshalTime l.expiresAt z.expiresAt ≠ none) (d : LeaseDraft) (f : LeaseField)
    (hc : f = .allowlistCIDRs → d.cells = [] ∧ d.len = 0) :
    ((l.fieldEntry z f).map fun e => (f.tag.toList, e)).elim (some d) d.member =
      some (d.put l f) := by
  cases he : l.fieldEntry z f with
  | some e => exact member_entry hl he d fun hf => (hc hf).1
  | none =>
    cases f with
    | allowlistCIDRs =>
      rw [Lease.fieldEntry] at he
      split at he
      · rename_i hnil
        obtain ⟨hcells, hlen⟩ := hc rfl
        simp only [Option.map_none, Option.elim_none, put, hnil, List.map_nil, List.length_nil]
        rw [← hcells, ← hlen]
      · cases he
    | createdAt => exact absurd (Option.map_eq_none_iff.1 he) hcreated
    | expiresAt => exact absurd (Option.map_eq_none_iff.1 he) hexpires
    | _ => cases he

theorem foldlM_filterMap_elim {g : α → Option β} {k : σ → β → Option σ} (as : List α) (s : σ) :
    (as.filterMap g).foldlM k s = as.foldlM (fun s a => (g a).elim (some s) (k s)) s := by
  induction as generalizing s with
  | nil => rfl
  | cons a as ih =>
    rw [List.filterMap_cons, List.foldlM_cons]
    cases g a with
    | none => exact ih s
    | some b =>
      simp only [List.foldlM_cons, Option.elim_some]
      congr 1
      funext s'
      exact ih s'

theorem foldlM_entries {l : Lease} (hl : l.Storable z)
    (hcreated : marshalTime l.createdAt z.createdAt ≠ none)
    (hexpires : marshalTime l.expiresAt z.expiresAt ≠ none) :
    (l.entries z).foldlM LeaseDraft.member .zero = some
      { leaseID := runes l.leaseID
        token := runes l.token
        allocatedPort := .ofInt l.allocatedPort
        cells := l.allowlistCIDRs.map runes
        len := l.allowlistCIDRs.length
        createdAt := l.createdAt
        expiresAt := l.expiresAt
        status := runes l.status.text } := by
  have hput := LeaseDraft.member_field hl hcreated hexpires
  rw [Lease.entries, foldlM_filterMap_elim]
  simp only [LeaseField.all, List.foldlM_cons, List.foldlM_nil, Option.bind_eq_bind]
  rw [hput _ .leaseID nofun, Option.bind_some, hput _ .token nofun, Option.bind_some,
    hput _ .allocatedPort nofun, Option.bind_some, hput _ .allowlistCIDRs fun _ => ⟨rfl, rfl⟩,
    Option.bind_some, hput _ .createdAt nofun, Option.bind_some, hput _ .expiresAt nofun,
    Option.bind_some, hput _ .status nofun, Option.bind_some]
  rfl

/-- What `persist` writes for a lease is the row that the next `Open` reads. -/
theorem Row.ofBytes_marshalBytes {l : Lease} (hl : l.Storable z)
    (h : l.marshalBytes z = some data) : Row.ofBytes data = l.marshal := by
  obtain ⟨⟨created, hcreated⟩, ⟨expires, hexpires⟩, rfl⟩ := Lease.marshalBytes_eq_some h
  have hport : (Int64.ofInt l.allocatedPort).toInt = l.allocatedPort :=
    Int64.toInt_ofInt_of_le hl.port.1 hl.port.2
  have hdepth : maxNestingDepth - 1 = 9998 + 1 := rfl
  have hentries : ∀ e ∈ l.entries z, Json.Denotes (9998 + 1) e.2.1 e.2.2 := by
    intro e he
    obtain ⟨f, _, hf⟩ := List.mem_filterMap.1 he
    obtain ⟨e', he', rfl⟩ := Option.map_eq_some_iff.1 hf
    exact Lease.denotes_fieldEntry 9998 he'
  have hread := Json.Denotes.readEntries hentries []
  have hfold := foldlM_entries hl (by rw [hcreated]; nofun) (by rw [hexpires]; nofun)
  have hlen : l.allowlistCIDRs.length = (l.allowlistCIDRs.map runes).length := by
    rw [List.length_map]
  rw [ofBytes, unmarshalRow, runes_utf8Encode, Json.skipSpace_cons (by decide)]
  simp only [if_true, hdepth, hread, Json.skipSpace, List.dropWhile_nil, hfold, Option.map_some]
  rw [LeaseDraft.finish, hlen, List.take_length, hport]
  simp only [Lease.marshal]
  rw [← toValidUTF8, hl.status]

theorem isSome_marshalTime : (marshalTime t offset).isSome ↔
    (0 ≤ RFC3339.yearAt t offset ∧ RFC3339.yearAt t offset ≤ 9999) ∧
      (offset.tdiv 60).natAbs / 60 < 24 := by
  simp only [marshalTime]
  split
  · simp only [Option.isSome_none, Bool.false_eq_true, false_iff]
    omega
  · split
    · simp only [Option.isSome_none, Bool.false_eq_true, false_iff]
      omega
    · simp only [Option.isSome_some, true_iff]
      omega

/-- A lease is written exactly when its two instants have years of four digits in their zones, and
what is written is read back as the lease with U+FFFD in place of the bytes that are not UTF-8. A
zone that is not whole minutes away would be cut to minutes, which moves the instant. -/
theorem Lease.unmarshal_marshalBytes (l : Lease) (z : Zones) :
    ((l.marshalBytes z).isSome ↔
      ((0 ≤ RFC3339.yearAt l.createdAt z.createdAt ∧
          RFC3339.yearAt l.createdAt z.createdAt ≤ 9999) ∧
        (z.createdAt.tdiv 60).natAbs / 60 < 24) ∧
      (0 ≤ RFC3339.yearAt l.expiresAt z.expiresAt ∧
          RFC3339.yearAt l.expiresAt z.expiresAt ≤ 9999) ∧
        (z.expiresAt.tdiv 60).natAbs / 60 < 24) ∧
    (l.Storable z → ∀ data, l.marshalBytes z = some data →
      (Row.ofBytes data).unmarshal = some { l with
        leaseID := toValidUTF8 l.leaseID
        token := toValidUTF8 l.token
        allowlistCIDRs := l.allowlistCIDRs.map toValidUTF8 }) := by
  constructor
  · rw [← isSome_marshalTime, ← isSome_marshalTime, marshalBytes]
    split
    · rename_i h
      simp only [Option.isSome_none, Bool.false_eq_true, false_iff, not_and_or]
      simpa only [Option.not_isSome_iff_eq_none, Option.isNone_iff_eq_none] using h
    · rename_i h
      simpa only [Option.isSome_some, true_iff, not_or, Option.not_isNone,
        Option.isSome_iff_ne_none, Option.isNone_iff_eq_none] using h
  · intro hl data h
    rw [Row.ofBytes_marshalBytes hl h, Lease.unmarshal_marshal]

/-- An id that is not UTF-8, an allowlist, and zones on both sides of UTC. -/
def sampleLease : Lease where
  leaseID := 0xff :: lit "\"a\"<"
  token := lit "abc"
  allocatedPort := 20000
  allowlistCIDRs := [lit "10.0.0.0/8", lit "::/0"]
  createdAt := 1700000000123456789
  expiresAt := -1
  status := .active

theorem unmarshal_sampleLease : ∃ data, sampleLease.marshalBytes ⟨7200, -19800⟩ = some data ∧
    (Row.ofBytes data).unmarshal =
      some { sampleLease with leaseID := toValidUTF8 sampleLease.leaseID } := by
  have hl : sampleLease.Storable ⟨7200, -19800⟩ := by
    refine ⟨by decide, by decide, by decide, by decide⟩
  obtain ⟨hsome, hread⟩ := sampleLease.unmarshal_marshalBytes ⟨7200, -19800⟩
  obtain ⟨data, hd⟩ := Option.isSome_iff_exists.1 (hsome.2 (by decide))
  refine ⟨data, hd, (hread hl data hd).trans ?_⟩
  decide

end RoundTrip

end HyruleProxy
