import HyruleProxy.GoString
import HyruleProxy.Json

namespace HyruleProxy
set_option autoImplicit true

namespace Json

/-- A reader that does not look beyond what it takes: whatever follows, it takes the same. -/
def Exact (item : List Char → Option (α × List Char)) : Prop :=
  ∀ ⦃cs x rest⦄, item cs = some (x, rest) →
    ∃ pre, cs = pre ++ rest ∧ ∀ t, item (pre ++ t) = some (x, t)

/-- A reader that looks one rune ahead. -/
def Ahead (item : List Char → Option (α × List Char)) : Prop :=
  ∀ ⦃cs x rest⦄, item cs = some (x, rest) →
    ∃ pre, cs = pre ++ rest ∧ ∀ t, t.head? = rest.head? → item (pre ++ t) = some (x, t)

theorem head?_append_cons (sp : List Char) (c : Char) (t u : List Char) :
    (sp ++ c :: t).head? = (sp ++ c :: u).head? := by
  cases sp <;> rfl

theorem skipSpace_split (h : skipSpace cs = c :: rest) :
    ∃ sp, cs = sp ++ c :: rest ∧ ∀ t, skipSpace (sp ++ c :: t) = c :: t := by
  have hc : isSpace c = false := by
    have hhead := List.head?_dropWhile_not isSpace cs
    rw [show cs.dropWhile isSpace = c :: rest from h] at hhead
    simpa using hhead
  refine ⟨cs.takeWhile isSpace, ?_, ?_⟩
  · rw [← h]
    exact (List.takeWhile_append_dropWhile).symm
  · intro t
    rw [skipSpace, List.dropWhile_append_of_pos (fun d hd => List.mem_takeWhile_imp hd),
      List.dropWhile_cons_of_neg (by rw [hc]; decide)]

section Strings

theorem readHex_exact : Exact readHex := by
  intro cs n rest h
  match cs, h with
  | a :: b :: c :: d :: cs, h =>
    rw [readHex] at h
    simp only [Option.bind_eq_some_iff, Option.map_eq_some_iff, Prod.mk.injEq] at h
    obtain ⟨a', ha, b', hb, c', hc, d', hd, he, rfl⟩ := h
    refine ⟨[a, b, c, d], rfl, ?_⟩
    intro t
    simp only [List.cons_append, List.nil_append, readHex, ha, hb, hc, hd, Option.bind_some,
      Option.map_some, he]

theorem readPiece_exact (h : readPiece cs = some (p, rest)) :
    ∃ c pre, cs = c :: pre ++ rest ∧ ∀ t, readPiece (c :: pre ++ t) = some (p, t) := by
  cases cs with
  | nil => cases h
  | cons c cs =>
    refine ⟨c, ?_⟩
    simp only [List.cons_append, readPiece.eq_def (_ :: _)] at h ⊢
    split at h
    · rename_i hquote
      cases h
      exact ⟨[], rfl, fun t => if_pos hquote⟩
    · rename_i hquote
      split at h
      · rename_i hslash
        cases cs with
        | nil => cases h
        | cons e cs =>
          simp only at h
          split at h
          · rename_i hu
            obtain ⟨⟨n, r⟩, hr, he⟩ := Option.map_eq_some_iff.1 h
            cases he
            obtain ⟨pre, rfl, hpre⟩ := readHex_exact hr
            refine ⟨e :: pre, rfl, ?_⟩
            intro t
            simp only [List.cons_append, if_neg hquote, if_pos hslash, if_pos hu, hpre t,
              Option.map_some]
          · rename_i hu
            obtain ⟨d, hd, he⟩ := Option.map_eq_some_iff.1 h
            cases he
            refine ⟨[e], rfl, ?_⟩
            intro t
            simp only [List.cons_append, List.nil_append, if_neg hquote, if_pos hslash, if_neg hu,
              hd, Option.map_some]
      · rename_i hslash
        split at h
        · cases h
        · rename_i hcontrol
          cases h
          refine ⟨[], rfl, ?_⟩
          intro t
          simp only [List.nil_append, if_neg hquote, if_neg hslash, if_neg hcontrol]

theorem readPieces_exact (h : readPieces n cs = some (ps, rest)) : ∃ pre, cs = pre ++ rest ∧
    ∀ m t, pre.length ≤ m → readPieces m (pre ++ t) = some (ps, t) := by
  induction n generalizing cs ps with
  | zero => cases h
  | succ n ih =>
    rw [readPieces] at h
    cases hp : readPiece cs with
    | none => rw [hp] at h; cases h
    | some q =>
      obtain ⟨p, cs'⟩ := q
      rw [hp] at h
      obtain ⟨c, pre, rfl, hpre⟩ := readPiece_exact hp
      cases p with
      | none =>
        cases h
        refine ⟨c :: pre, rfl, ?_⟩
        intro m t hm
        obtain ⟨m, rfl⟩ := Nat.exists_eq_add_one_of_ne_zero (Nat.ne_zero_of_lt hm)
        rw [readPieces, hpre t]
      | some p =>
        obtain ⟨⟨ps', r⟩, hr, he⟩ := Option.map_eq_some_iff.1 h
        cases he
        obtain ⟨pre', rfl, hpre'⟩ := ih hr
        refine ⟨c :: pre ++ pre', by rw [List.append_assoc], ?_⟩
        intro m t hm
        rw [List.length_append, List.length_cons] at hm
        obtain ⟨m, rfl⟩ := Nat.exists_eq_add_one_of_ne_zero (show m ≠ 0 by omega)
        rw [readPieces, List.append_assoc, hpre (pre' ++ t)]
        simp only [hpre' m t (by omega), Option.map_some]

theorem readString_exact : Exact readString := by
  intro cs s rest h
  obtain ⟨⟨ps, r⟩, hr, he⟩ := Option.map_eq_some_iff.1 h
  cases he
  obtain ⟨pre, hcs, hpre⟩ := readPieces_exact hr
  refine ⟨pre, hcs, ?_⟩
  intro t
  rw [readString, hpre _ t (by rw [List.length_append]; omega), Option.map_some]

end Strings

section Scalars

theorem readNumber_ahead (st : NumState) : Ahead (readNumber st) := by
  intro cs x rest h
  induction cs generalizing st x with
  | nil =>
    rw [readNumber] at h
    split at h
    · rename_i hst
      cases h
      refine ⟨[], rfl, ?_⟩
      intro t ht
      rw [List.head?_eq_none_iff.1 ht]
      exact if_pos hst
    · cases h
  | cons c cs ih =>
    rw [readNumber] at h
    split at h
    · rename_i st' hst
      obtain ⟨⟨y, r⟩, hr, he⟩ := Option.map_eq_some_iff.1 h
      cases he
      obtain ⟨pre, rfl, hpre⟩ := ih st' hr
      refine ⟨c :: pre, rfl, ?_⟩
      intro t ht
      rw [List.cons_append, readNumber, hst]
      simp only [hpre t ht, Option.map_some]
    · rename_i hst
      split at h
      · rename_i hfinal
        cases h
        refine ⟨[], rfl, ?_⟩
        intro t ht
        rw [List.nil_append, List.eq_cons_of_mem_head? ht, readNumber, hst]
        exact if_pos hfinal
      · cases h

theorem readLiteral_eq_some : readLiteral cs = some (v, rest) ↔
    ∃ p ∈ literals, cs = p.1 ++ rest ∧ v = p.2 := by
  have hskip : ∀ {p : List Char × Json}, (if p.1.isPrefixOf cs then
      some (p.2, cs.drop p.1.length) else none) = some (v, rest) → cs = p.1 ++ rest ∧ v = p.2 := by
    intro p h
    split at h
    · rename_i hp
      cases h
      obtain ⟨t, rfl⟩ := List.isPrefixOf_iff_prefix.1 hp
      rw [List.drop_left]
      exact ⟨rfl, rfl⟩
    · cases h
  constructor
  · intro h
    obtain ⟨p, hp, he⟩ := List.exists_of_findSome?_eq_some h
    exact ⟨p, hp, hskip he⟩
  · rintro ⟨p, hp, rfl, rfl⟩
    simp only [literals, List.mem_cons, List.not_mem_nil, or_false] at hp
    rcases hp with rfl | rfl | rfl <;> simp [readLiteral, literals]

end Scalars

section Nested

variable {item : List Char → Option (α × List Char)}

theorem Ahead.readItems (hi : Ahead item) (h : readItems item close n cs = some (xs, rest)) :
    ∃ pre, cs = pre ++ close :: rest ∧
      ∀ m t, pre.length < m → readItems item close m (pre ++ close :: t) = some (xs, t) := by
  induction n generalizing cs xs with
  | zero => cases h
  | succ n ih =>
    rw [Json.readItems] at h
    cases hitem : item cs with
    | none => rw [hitem] at h; cases h
    | some q =>
      obtain ⟨x, cs'⟩ := q
      rw [hitem] at h
      simp only at h
      split at h
      · cases h
      · rename_i c cs'' hskip
        obtain ⟨pre, rfl, hpre⟩ := hi hitem
        obtain ⟨sp, rfl, hsp⟩ := skipSpace_split hskip
        split at h
        · rename_i hcomma
          subst hcomma
          obtain ⟨⟨ys, r⟩, hr, he⟩ := Option.map_eq_some_iff.1 h
          cases he
          obtain ⟨pre', rfl, hpre'⟩ := ih hr
          refine ⟨pre ++ (sp ++ ',' :: pre'), by simp, ?_⟩
          intro m t hm
          simp only [List.length_append, List.length_cons] at hm
          obtain ⟨m, rfl⟩ := Nat.exists_eq_add_one_of_ne_zero (show m ≠ 0 by omega)
          have hnext := hpre (sp ++ ',' :: (pre' ++ close :: t)) (head?_append_cons sp ',' _ _)
          rw [Json.readItems, List.append_assoc, List.append_assoc, List.cons_append, hnext]
          simp only [hsp, if_true, hpre' m t (by omega), Option.map_some]
        · rename_i hcomma
          split at h
          · rename_i hclose
            subst hclose
            cases h
            refine ⟨pre ++ sp, by rw [List.append_assoc], ?_⟩
            intro m t hm
            obtain ⟨m, rfl⟩ := Nat.exists_eq_add_one_of_ne_zero (Nat.ne_zero_of_lt hm)
            have hnext := hpre (sp ++ c :: t) (head?_append_cons sp c _ _)
            rw [Json.readItems, List.append_assoc, hnext]
            simp only [hsp, if_neg hcomma, if_true]
          · cases h

theorem Ahead.readSeq (hi : Ahead item) (h : readSeq item close cs = some (xs, rest)) :
    ∃ pre, cs = pre ++ close :: rest ∧
      ∀ t, readSeq item close (pre ++ close :: t) = some (xs, t) := by
  rw [Json.readSeq] at h
  split at h
  · cases h
  · rename_i c cs' hskip
    obtain ⟨sp, rfl, hsp⟩ := skipSpace_split hskip
    split at h
    · rename_i hclose
      subst hclose
      cases h
      refine ⟨sp, rfl, ?_⟩
      intro t
      simp only [Json.readSeq, hsp, if_true]
    · rename_i hclose
      obtain ⟨pre, hcs, hpre⟩ := hi.readItems h
      cases pre with
      | nil => exact absurd (List.cons.inj hcs).1 hclose
      | cons d pre =>
        obtain ⟨rfl, rfl⟩ := List.cons.inj hcs
        refine ⟨sp ++ c :: pre, by simp, ?_⟩
        intro t
        have hlen : (c :: pre).length < (c :: (pre ++ close :: t)).length := by
          simp only [List.length_cons, List.length_append]
          omega
        rw [List.append_assoc, List.cons_append, Json.readSeq, hsp]
        simp only [if_neg hclose]
        exact hpre _ t hlen

theorem readKey_exact : Exact readKey := by
  intro cs k rest h
  rw [readKey] at h
  split at h
  · cases h
  · rename_i c cs' hskip
    obtain ⟨sp, rfl, hsp⟩ := skipSpace_split hskip
    split at h
    · rename_i hquote
      obtain ⟨pre, rfl, hpre⟩ := readString_exact h
      refine ⟨sp ++ c :: pre, by simp, ?_⟩
      intro t
      simp only [List.append_assoc, List.cons_append, readKey, hsp, if_pos hquote, hpre t]
    · cases h

theorem Ahead.readMember {value : List Char → Option (Json × List Char)} (hv : Ahead value) :
    Ahead (readMember value) := by
  intro cs m rest h
  rw [Json.readMember] at h
  cases hk : readKey cs with
  | none => rw [hk] at h; cases h
  | some q =>
    obtain ⟨k, cs'⟩ := q
    rw [hk] at h
    simp only at h
    split at h
    · cases h
    · rename_i c cs'' hskip
      obtain ⟨key, rfl, hkey⟩ := readKey_exact hk
      obtain ⟨sp, rfl, hsp⟩ := skipSpace_split hskip
      split at h
      · rename_i hcolon
        obtain ⟨⟨v, r⟩, hr, he⟩ := Option.map_eq_some_iff.1 h
        cases he
        obtain ⟨pre, rfl, hpre⟩ := hv hr
        refine ⟨key ++ (sp ++ c :: pre), by simp, ?_⟩
        intro t ht
        simp only [List.append_assoc, List.cons_append, Json.readMember, hkey, hsp, if_pos hcolon,
          hpre t ht, Option.map_some]
      · cases h

/-- The rune with which a value ends, if all values of its kind end with the same one. -/
def lastRune : Json → Option Char
  | .obj _ => some '}'
  | .arr _ => some ']'
  | .null => some 'l'
  | _ => none

/-- What is taken for a value, and what it ends with. Only a number has to look ahead. -/
structure Takes (value : List Char → Option (Json × List Char)) (v : Json) (pre rest : List Char) :
    Prop where
  value : ∀ t, (t.head? = rest.head? ∨ ∀ text, v ≠ .num text) → value (pre ++ t) = some (v, t)
  last : ∀ c ∈ v.lastRune, ∃ p, pre = p ++ [c]

theorem beginValue_takes {value : Option (List Char → Option (Json × List Char))}
    (hv : ∀ f ∈ value, Ahead f) (h : beginValue value cs = some (v, rest)) :
    ∃ pre, cs = pre ++ rest ∧ Takes (beginValue value) v pre rest := by
  rw [beginValue] at h
  split at h
  · cases h
  · rename_i c cs' hskip
    obtain ⟨sp, rfl, hsp⟩ := skipSpace_split hskip
    split at h
    · rename_i hquote
      obtain ⟨⟨s, r⟩, hr, he⟩ := Option.map_eq_some_iff.1 h
      cases he
      obtain ⟨pre, rfl, hpre⟩ := readString_exact hr
      refine ⟨sp ++ c :: pre, by simp, ?_, ?_⟩
      · intro t _
        simp only [List.append_assoc, List.cons_append, beginValue, hsp, if_pos hquote, hpre t,
          Option.map_some]
      · intro d hd
        cases hd
    · rename_i hquote
      split at h
      · rename_i hbrace
        obtain ⟨f, hf, h⟩ := Option.bind_eq_some_iff.1 h
        obtain ⟨⟨ms, r⟩, hr, he⟩ := Option.map_eq_some_iff.1 h
        cases he
        obtain ⟨pre, rfl, hpre⟩ := (hv f hf).readMember.readSeq hr
        refine ⟨sp ++ c :: (pre ++ ['}']), by simp, ?_, ?_⟩
        · intro t _
          simp only [List.append_assoc, List.cons_append, List.nil_append, beginValue, hsp,
            if_neg hquote, if_pos hbrace, hf, Option.bind_some, hpre t, Option.map_some]
        · intro d hd
          cases hd
          exact ⟨sp ++ c :: pre, by simp⟩
      · rename_i hbrace
        split at h
        · rename_i hbracket
          obtain ⟨f, hf, h⟩ := Option.bind_eq_some_iff.1 h
          obtain ⟨⟨vs, r⟩, hr, he⟩ := Option.map_eq_some_iff.1 h
          cases he
          obtain ⟨pre, rfl, hpre⟩ := (hv f hf).readSeq hr
          refine ⟨sp ++ c :: (pre ++ [']']), by simp, ?_, ?_⟩
          · intro t _
            simp only [List.append_assoc, List.cons_append, List.nil_append, beginValue, hsp,
              if_neg hquote, if_neg hbrace, if_pos hbracket, hf, Option.bind_some, hpre t,
              Option.map_some]
          · intro d hd
            cases hd
            exact ⟨sp ++ c :: pre, by simp⟩
        · rename_i hbracket
          split at h
          · rename_i st hst
            obtain ⟨⟨text, r⟩, hr, he⟩ := Option.map_eq_some_iff.1 h
            cases he
            obtain ⟨pre, rfl, hpre⟩ := readNumber_ahead st hr
            refine ⟨sp ++ c :: pre, by simp, ?_, ?_⟩
            · intro t ht
              have hhead : t.head? = r.head? := by
                rcases ht with ht | ht
                · exact ht
                · exact absurd rfl (ht _)
              simp only [List.append_assoc, List.cons_append, beginValue, hsp, if_neg hquote,
                if_neg hbrace, if_neg hbracket, hst, hpre t hhead, Option.map_some]
            · intro d hd
              cases hd
          · rename_i hst
            obtain ⟨p, hp, hcs, rfl⟩ := readLiteral_eq_some.1 h
            refine ⟨sp ++ p.1, by rw [hcs, List.append_assoc], ?_, ?_⟩
            · intro t _
              have hlit : readLiteral (p.1 ++ t) = some (p.2, t) :=
                readLiteral_eq_some.2 ⟨p, hp, rfl, rfl⟩
              obtain ⟨q, hq⟩ : ∃ q, p.1 ++ t = c :: q := by
                cases hp1 : p.1 with
                | nil =>
                  simp only [literals, List.mem_cons, List.not_mem_nil, or_false] at hp
                  rcases hp with rfl | rfl | rfl <;> cases hp1
                | cons d q =>
                  rw [hp1] at hcs
                  exact ⟨q ++ t, by rw [(List.cons.inj hcs).1]; rfl⟩
              rw [hq] at hlit
              simp only [List.append_assoc, hq, beginValue, hsp, if_neg hquote, if_neg hbrace,
                if_neg hbracket, hst, hlit]
            · intro d hd
              simp only [literals, List.mem_cons, List.not_mem_nil, or_false] at hp
              rcases hp with rfl | rfl | rfl
              · cases hd
                exact ⟨sp ++ ['n', 'u', 'l'], by simp⟩
              · cases hd
              · cases hd

theorem parseValue_takes (h : parseValue depth cs = some (v, rest)) :
    ∃ pre, cs = pre ++ rest ∧ Takes (parseValue depth) v pre rest := by
  induction depth generalizing cs v rest with
  | zero =>
    refine beginValue_takes ?_ h
    intro f hf
    cases hf
  | succ depth ih =>
    refine beginValue_takes ?_ h
    intro f hf
    cases hf
    intro cs v rest h
    obtain ⟨pre, hcs, htakes⟩ := ih h
    exact ⟨pre, hcs, fun t ht => htakes.value t (.inl ht)⟩

end Nested

end Json

section Bytes

theorem decodeRune_split (hb : b < 128) (hs : s ≠ []) (t : GoString) :
    decodeRune (s ++ b :: t) = decodeRune s := by
  cases hd : decodeRune s with
  | some c =>
    obtain ⟨u, rfl⟩ := decodeRune_eq_some hd
    rw [List.append_assoc, decodeRune_encode]
  | none =>
    cases hd' : decodeRune (s ++ b :: t) with
    | none => rfl
    | some c =>
      exfalso
      obtain ⟨u, hu⟩ := decodeRune_eq_some hd'
      rcases List.append_eq_append_iff.1 hu with ⟨v, hv, hbt⟩ | ⟨v, hv, _⟩
      · cases v with
        | nil =>
          rw [List.append_nil] at hv
          rw [← hv, ← List.append_nil (String.utf8EncodeChar c), decodeRune_encode] at hd
          cases hd
        | cons x v =>
          cases hbt
          exact hs (utf8EncodeChar_split hv (ascii_isUTF8FirstByte hb))
      · rw [hv, decodeRune_encode] at hd
        cases hd

theorem runes_ascii_between (hb : b < 128) (s t : GoString) :
    runes (s ++ b :: t) = runes s ++ Char.ofNat b.toNat :: runes t := by
  induction s using runes_induction with
  | nil => exact runes_cons hb t
  | rune c s ih => rw [List.append_assoc, runes_encode, runes_encode, ih, List.cons_append]
  | invalid x s hd ih =>
    have hd' := (decodeRune_split hb (List.cons_ne_nil x s) t).trans hd
    rw [List.cons_append] at hd' ⊢
    rw [runes_invalid hd', runes_invalid hd, ih, List.cons_append]

theorem exists_byte_of_ascii (hc : c.toNat < 128) :
    ∃ b : UInt8, b < 128 ∧ b.toNat = c.toNat ∧ String.utf8EncodeChar c = [b] := by
  have hb : c.toNat.toUInt8.toNat = c.toNat := by
    rw [Nat.toUInt8, UInt8.toNat_ofNat']
    omega
  have hlt : c.toNat.toUInt8 < 128 := by
    rw [UInt8.lt_iff_toNat_lt, hb]
    exact hc
  have he := utf8EncodeChar_ascii c.toNat.toUInt8 hlt
  rw [hb, Char.ofNat_toNat] at he
  exact ⟨_, hlt, hb, he⟩

theorem split_of_runes (h : runes s = cs ++ c :: rest) (hc : c.toNat < 128) :
    ∃ u b w, b < 128 ∧ Char.ofNat b.toNat = c ∧ s = u ++ b :: w ∧ runes u = cs ∧
      runes w = rest := by
  induction s using runes_induction generalizing cs with
  | nil => simp [runes, runesLoop] at h
  | rune d s ih =>
    rw [runes_encode] at h
    cases cs with
    | nil =>
      obtain ⟨rfl, hs⟩ := List.cons.inj h
      obtain ⟨b, hb, hn, he⟩ := exists_byte_of_ascii hc
      exact ⟨[], b, s, hb, by rw [hn, Char.ofNat_toNat], by rw [he]; rfl, rfl, hs⟩
    | cons d' cs =>
      obtain ⟨rfl, hs⟩ := List.cons.inj h
      obtain ⟨u, b, w, hb, hbc, rfl, hu, hw⟩ := ih hs
      exact ⟨String.utf8EncodeChar d ++ u, b, w, hb, hbc, by rw [List.append_assoc],
        by rw [runes_encode, hu], hw⟩
  | invalid x s hd ih =>
    rw [runes_invalid hd] at h
    cases cs with
    | nil =>
      obtain ⟨rfl, _⟩ := List.cons.inj h
      exact absurd hc (by decide)
    | cons d' cs =>
      obtain ⟨rfl, hs⟩ := List.cons.inj h
      obtain ⟨u, b, w, hb, hbc, rfl, hu, hw⟩ := ih hs
      rw [← List.cons_append, decodeRune_split hb (List.cons_ne_nil x u)] at hd
      exact ⟨x :: u, b, w, hb, hbc, rfl, by rw [runes_invalid hd, hu], hw⟩

/-- An object or `null` at the front of a string is read out of its bytes whatever bytes follow. -/
theorem Json.parseValue_bytes {v : Json} (hv : v = .null ∨ ∃ ms, v = .obj ms)
    (h : parseValue depth (runes s) = some (v, rest)) :
    ∃ u w, s = u ++ w ∧ runes w = rest ∧
      ∀ t, parseValue depth (runes (u ++ t)) = some (v, runes t) := by
  obtain ⟨pre, hs, htakes⟩ := parseValue_takes h
  have hnum : ∀ text, v ≠ .num text := by
    rintro text rfl
    rcases hv with hv | ⟨ms, hv⟩ <;> cases hv
  obtain ⟨c, hl, hc⟩ : ∃ c, v.lastRune = some c ∧ c.toNat < 128 := by
    rcases hv with rfl | ⟨ms, rfl⟩
    · exact ⟨'l', rfl, by decide⟩
    · exact ⟨'}', rfl, by decide⟩
  obtain ⟨p, rfl⟩ := htakes.last c hl
  rw [List.append_assoc, List.singleton_append] at hs
  obtain ⟨u, b, w, hb, hbc, rfl, hu, hw⟩ := split_of_runes hs hc
  refine ⟨u ++ [b], w, by simp, hw, ?_⟩
  intro t
  rw [List.append_assoc, List.singleton_append, runes_ascii_between hb, hu, hbc,
    ← List.singleton_append, ← List.append_assoc]
  exact htakes.value _ (.inr hnum)

end Bytes

end HyruleProxy
