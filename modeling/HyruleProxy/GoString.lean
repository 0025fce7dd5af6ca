import Mathlib

namespace HyruleProxy
set_option autoImplicit true

/-- A Go string is the list of its bytes, which need not be UTF-8. -/
abbrev GoString := List UInt8

instance GoString.lawfulBEq : LawfulBEq GoString := inferInstance

/-- The bytes of a string constant. -/
def lit (s : String) : GoString := s.toByteArray.data.toList

def utf8Encode (cs : List Char) : GoString := cs.flatMap String.utf8EncodeChar

/-- The rune at the front of a string, or `none` where `utf8.DecodeRune` reports an error. -/
def decodeRune (s : GoString) : Option Char := s.toByteArray.utf8DecodeChar? 0

/-- The replacement rune U+FFFD. -/
def runeError : Char := '�'

def runesLoop : Nat → GoString → List Char
  | 0, _ => []
  | _ + 1, [] => []
  | n + 1, b :: s =>
    match decodeRune (b :: s) with
    | some c => c :: runesLoop n ((b :: s).drop c.utf8Size)
    | none => runeError :: runesLoop n s

/-- The runes of `for range s`: every byte that starts no rune counts as U+FFFD. -/
def runes (s : GoString) : List Char := runesLoop s.length s

/-- The string with each invalid byte replaced by U+FFFD. -/
def toValidUTF8 (s : GoString) : GoString := utf8Encode (runes s)

/-- The model of `utf8.ValidString`. -/
def ValidUTF8 (s : GoString) : Prop := toValidUTF8 s = s

instance (s : GoString) : Decidable (ValidUTF8 s) := inferInstanceAs (Decidable (_ = _))

theorem decodeRune_encode (c : Char) (s : GoString) :
    decodeRune (String.utf8EncodeChar c ++ s) = some c := by
  rw [decodeRune, List.toByteArray_append]
  exact ByteArray.utf8DecodeChar?_utf8EncodeChar_append

theorem utf8EncodeChar_ne_nil (c : Char) : String.utf8EncodeChar c ≠ [] := by
  intro h
  have hl := congrArg List.length h
  have hp := c.utf8Size_pos
  rw [String.length_utf8EncodeChar, List.length_nil] at hl
  omega

/-- A loop over the runes of a string takes an encoded rune as a whole. -/
theorem encode_cons (c : Char) (s : GoString) : ∃ b t, String.utf8EncodeChar c ++ s = b :: t ∧
    decodeRune (b :: t) = some c ∧ (b :: t).drop c.utf8Size = s := by
  obtain ⟨b, t, ht⟩ := List.exists_cons_of_ne_nil (utf8EncodeChar_ne_nil c)
  refine ⟨b, t ++ s, by rw [ht, List.cons_append], ?_, ?_⟩
  · rw [← List.cons_append, ← ht]
    exact decodeRune_encode c s
  · rw [← List.cons_append, ← ht, ← String.length_utf8EncodeChar, List.drop_left]

theorem runesLoop_encode (c : Char) (s : GoString) (n : Nat) :
    runesLoop (n + 1) (String.utf8EncodeChar c ++ s) = c :: runesLoop n s := by
  obtain ⟨b, t, ht, hd, hs⟩ := encode_cons c s
  rw [ht, runesLoop, hd]
  simp only [hs]

theorem runesLoop_utf8Encode (cs : List Char) (n : Nat) (hn : (utf8Encode cs).length ≤ n) :
    runesLoop n (utf8Encode cs) = cs := by
  induction cs generalizing n with
  | nil => cases n <;> rfl
  | cons c cs ih =>
    have hp := c.utf8Size_pos
    simp only [utf8Encode, List.flatMap_cons, List.length_append,
      String.length_utf8EncodeChar] at hn ih ⊢
    obtain ⟨m, rfl⟩ : ∃ m, n = m + 1 := ⟨n - 1, by omega⟩
    rw [runesLoop_encode, ih m (by omega)]

theorem runes_utf8Encode (cs : List Char) : runes (utf8Encode cs) = cs :=
  runesLoop_utf8Encode cs _ (Nat.le_refl _)

theorem validUTF8_iff : ValidUTF8 s ↔ ∃ cs, s = utf8Encode cs := by
  constructor
  · intro h
    exact ⟨runes s, h.symm⟩
  · rintro ⟨cs, rfl⟩
    rw [ValidUTF8, toValidUTF8, runes_utf8Encode]

theorem utf8Encode_append (cs ds : List Char) :
    utf8Encode (cs ++ ds) = utf8Encode cs ++ utf8Encode ds := List.flatMap_append

theorem ValidUTF8.append (hs : ValidUTF8 s) (ht : ValidUTF8 t) : ValidUTF8 (s ++ t) := by
  obtain ⟨cs, rfl⟩ := validUTF8_iff.1 hs
  obtain ⟨ds, rfl⟩ := validUTF8_iff.1 ht
  exact validUTF8_iff.2 ⟨cs ++ ds, (utf8Encode_append cs ds).symm⟩

/-- All bytes of the string are ASCII. -/
def IsASCII (s : GoString) : Prop := ∀ b ∈ s, b < 128

theorem IsASCII.nil : IsASCII [] := by
  intro b hb
  cases hb

theorem IsASCII.cons (hb : b < 128) (hs : IsASCII s) : IsASCII (b :: s) := by
  intro c hc
  cases hc with
  | head => exact hb
  | tail _ hc => exact hs c hc

theorem IsASCII.append (hs : IsASCII s) (ht : IsASCII t) : IsASCII (s ++ t) := by
  intro b hb
  rcases List.mem_append.1 hb with hb | hb
  · exact hs b hb
  · exact ht b hb

theorem utf8EncodeChar_ascii (b : UInt8) (hb : b < 128) :
    String.utf8EncodeChar (Char.ofNat b.toNat) = [b] := by
  revert b
  decide +kernel

theorem IsASCII.validUTF8 (h : IsASCII s) : ValidUTF8 s := by
  apply validUTF8_iff.2
  refine ⟨s.map fun b => Char.ofNat b.toNat, ?_⟩
  induction s with
  | nil => rfl
  | cons b s ih =>
    have hb := utf8EncodeChar_ascii b (h b List.mem_cons_self)
    have ht := ih fun c hc => h c (List.mem_cons_of_mem b hc)
    rw [List.map_cons, utf8Encode, List.flatMap_cons, hb]
    exact congrArg (b :: ·) ht

theorem lit_eq (s : String) : lit s = utf8Encode s.toList := by
  rw [lit, ← String.utf8Encode_toList]
  simp [utf8Encode, List.utf8Encode]

theorem validUTF8_lit (s : String) : ValidUTF8 (lit s) := validUTF8_iff.2 ⟨s.toList, lit_eq s⟩

theorem utf8Encode_cons (c : Char) (cs : List Char) :
    utf8Encode (c :: cs) = String.utf8EncodeChar c ++ utf8Encode cs := List.flatMap_cons

theorem ValidUTF8.of_append_left (hs : ValidUTF8 s) (h : ValidUTF8 (s ++ t)) : ValidUTF8 t := by
  obtain ⟨cs, rfl⟩ := validUTF8_iff.1 hs
  obtain ⟨ds, hd⟩ := validUTF8_iff.1 h
  induction cs generalizing ds with
  | nil => exact h
  | cons c cs ih =>
    rw [utf8Encode_cons, List.append_assoc] at hd
    cases ds with
    | nil =>
      have hn := (List.append_eq_nil_iff.1 hd).1
      exact absurd hn (utf8EncodeChar_ne_nil c)
    | cons d ds =>
      rw [utf8Encode_cons] at hd
      have hc : some c = some d := by
        rw [← decodeRune_encode c, hd, decodeRune_encode]
      cases hc
      have hd := List.append_cancel_left hd
      exact ih (validUTF8_iff.2 ⟨cs, rfl⟩) (validUTF8_iff.2 ⟨ds, hd⟩) ds hd

theorem utf8EncodeChar_split (h : String.utf8EncodeChar c = s ++ b :: t)
    (hb : b.IsUTF8FirstByte) : s = [] := by
  have hl : s.length < (String.utf8EncodeChar c).length := by
    rw [h]
    simp
  have hg : (String.utf8EncodeChar c)[s.length] = b := by
    simp [h]
  rw [← hg] at hb
  exact List.length_eq_zero_iff.1 (UInt8.isUTF8FirstByte_getElem_utf8EncodeChar.1 hb)

theorem utf8Encode_firstByte (h : utf8Encode cs = b :: s) : b.IsUTF8FirstByte := by
  cases cs with
  | nil => cases h
  | cons c cs =>
    have hp : 0 < (String.utf8EncodeChar c).length := by
      rw [String.length_utf8EncodeChar]
      exact c.utf8Size_pos
    have hb : (String.utf8EncodeChar c)[0] = b := by
      have := congrArg (fun l => l[0]?) h
      rw [utf8Encode_cons] at this
      simpa [List.getElem?_append_left hp, List.getElem?_eq_getElem hp] using this
    rw [← hb]
    exact UInt8.isUTF8FirstByte_getElem_utf8EncodeChar.2 rfl

theorem ValidUTF8.of_append_right (ht : ValidUTF8 t) (h : ValidUTF8 (s ++ t)) : ValidUTF8 s := by
  obtain ⟨ds, hd⟩ := validUTF8_iff.1 h
  cases t with
  | nil =>
    rw [List.append_nil] at h
    exact h
  | cons b t =>
    obtain ⟨ts, hts⟩ := validUTF8_iff.1 ht
    have hb := utf8Encode_firstByte hts.symm
    clear h ht hts
    induction ds generalizing s with
    | nil =>
      rw [(List.append_eq_nil_iff.1 hd).1]
      exact validUTF8_iff.2 ⟨[], rfl⟩
    | cons d ds ih =>
      rw [utf8Encode_cons] at hd
      rcases List.append_eq_append_iff.1 hd with ⟨u, hu, _⟩ | ⟨u, hu, hrest⟩
      · -- the text ends inside the first rune
        cases u with
        | nil =>
          rw [List.append_nil] at hu
          rw [← hu]
          exact validUTF8_iff.2 ⟨[d], (List.append_nil _).symm⟩
        | cons c u =>
          rename_i hcons
          rw [List.cons_append, List.cons.injEq] at hcons
          rw [← hcons.1] at hu
          rw [utf8EncodeChar_split hu hb]
          exact validUTF8_iff.2 ⟨[], rfl⟩
      · rw [hu]
        apply ValidUTF8.append
        · exact validUTF8_iff.2 ⟨[d], (List.append_nil _).symm⟩
        · exact ih hrest.symm

theorem decodeRune_eq_some (h : decodeRune s = some c) : ∃ t, s = String.utf8EncodeChar c ++ t := by
  obtain ⟨l, hl⟩ := ByteArray.exists_of_utf8DecodeChar?_eq_some h
  refine ⟨l.data.toList, ?_⟩
  have he := congrArg (fun b => b.data.toList) hl
  simpa using he

theorem runesLoop_eq_runes (n : Nat) (h : s.length ≤ n) : runesLoop n s = runes s := by
  suffices hm : ∀ m k, s.length ≤ m → s.length ≤ k → runesLoop m s = runesLoop k s from
    hm n s.length h (Nat.le_refl _)
  clear h n
  intro m
  induction m generalizing s with
  | zero =>
    intro k hm _
    rw [List.length_eq_zero_iff.1 (Nat.le_zero.1 hm)]
    cases k <;> rfl
  | succ m ih =>
    intro k hm hk
    cases s with
    | nil => cases k <;> rfl
    | cons b s =>
      obtain ⟨k, rfl⟩ : ∃ k', k = k' + 1 := ⟨k - 1, by simp only [List.length_cons] at hk; omega⟩
      simp only [List.length_cons] at hm hk
      rw [runesLoop, runesLoop]
      cases hd : decodeRune (b :: s) with
      | none =>
        simp only
        rw [ih k (by omega) (by omega)]
      | some c =>
        have hp := c.utf8Size_pos
        have hl : ((b :: s).drop c.utf8Size).length ≤ s.length := by
          simp only [List.length_drop, List.length_cons]
          omega
        simp only
        rw [ih k (by omega) (by omega)]

theorem runes_encode (c : Char) (s : GoString) :
    runes (String.utf8EncodeChar c ++ s) = c :: runes s := by
  have hp := c.utf8Size_pos
  have hl : (String.utf8EncodeChar c ++ s).length = c.utf8Size + s.length := by
    rw [List.length_append, String.length_utf8EncodeChar]
  rw [← runesLoop_eq_runes (c.utf8Size + s.length) (by omega)]
  obtain ⟨m, hm⟩ : ∃ m, c.utf8Size + s.length = m + 1 := ⟨c.utf8Size + s.length - 1, by omega⟩
  rw [hm, runesLoop_encode, runesLoop_eq_runes m (by omega)]

theorem runes_invalid (h : decodeRune (b :: s) = none) : runes (b :: s) = runeError :: runes s := by
  rw [runes, List.length_cons, runesLoop, h]
  rfl

theorem ascii_isUTF8FirstByte (hb : b < 128) : UInt8.IsUTF8FirstByte b := by
  revert b
  decide +kernel

theorem decodeRune_snoc (hb : b < 128) (s : GoString) (hs : s ≠ []) :
    decodeRune (s ++ [b]) = decodeRune s := by
  cases hd : decodeRune s with
  | some c =>
    obtain ⟨t, rfl⟩ := decodeRune_eq_some hd
    rw [List.append_assoc, decodeRune_encode]
  | none =>
    cases hd' : decodeRune (s ++ [b]) with
    | none => rfl
    | some c =>
      obtain ⟨t, ht⟩ := decodeRune_eq_some hd'
      rcases List.eq_nil_or_concat t with rfl | ⟨t, d, rfl⟩
      · rw [List.append_nil] at ht
        exact absurd (utf8EncodeChar_split ht.symm (ascii_isUTF8FirstByte hb)) hs
      · rw [List.concat_eq_append, ← List.append_assoc] at ht
        rw [(List.append_inj' ht rfl).1, decodeRune_encode] at hd
        cases hd

/-- Induction along the runes of a string. -/
@[elab_as_elim]
theorem runes_induction {P : GoString → Prop} (s : GoString) (nil : P [])
    (rune : ∀ c s, P s → P (String.utf8EncodeChar c ++ s))
    (invalid : ∀ b s, decodeRune (b :: s) = none → P s → P (b :: s)) : P s := by
  induction hn : s.length using Nat.strong_induction_on generalizing s with
  | _ n ih =>
    cases s with
    | nil => exact nil
    | cons b s =>
      cases hd : decodeRune (b :: s) with
      | none => exact invalid b s hd (ih s.length (by rw [← hn, List.length_cons]; omega) s rfl)
      | some c =>
        obtain ⟨t, ht⟩ := decodeRune_eq_some hd
        have hl := congrArg List.length ht
        have hp := c.utf8Size_pos
        rw [List.length_append, String.length_utf8EncodeChar] at hl
        rw [ht]
        exact rune c t (ih t.length (by omega) t rfl)

theorem runes_snoc (hb : b < 128) (s : GoString) :
    runes (s ++ [b]) = runes s ++ [Char.ofNat b.toNat] := by
  induction s using runes_induction with
  | nil =>
    have h := runes_encode (Char.ofNat b.toNat) []
    rw [utf8EncodeChar_ascii b hb] at h
    exact h
  | rune c s ih => rw [List.append_assoc, runes_encode, runes_encode, ih, List.cons_append]
  | invalid x s hd ih =>
    have hd' := (decodeRune_snoc hb (x :: s) (by simp)).trans hd
    rw [List.cons_append] at hd' ⊢
    rw [runes_invalid hd', runes_invalid hd, ih, List.cons_append]

theorem runes_cons (hb : b < 128) (s : GoString) :
    runes (b :: s) = Char.ofNat b.toNat :: runes s := by
  have h := runes_encode (Char.ofNat b.toNat) s
  rw [utf8EncodeChar_ascii b hb] at h
  exact h

theorem runes_utf8Encode_append (cs : List Char) (s : GoString) :
    runes (utf8Encode cs ++ s) = cs ++ runes s := by
  induction cs with
  | nil => rfl
  | cons c cs ih => rw [utf8Encode_cons, List.append_assoc, runes_encode, ih, List.cons_append]

theorem decodeRune_part (h : String.utf8EncodeChar c = s ++ (u ++ t)) (ht : t ≠ []) :
    decodeRune u = none := by
  cases hd : decodeRune u with
  | none => rfl
  | some d =>
    exfalso
    obtain ⟨rest, rfl⟩ := decodeRune_eq_some hd
    have hs : s = [] := by
      obtain ⟨b, e, he⟩ := List.exists_cons_of_ne_nil (utf8EncodeChar_ne_nil d)
      have hb : utf8Encode [d] = b :: e := by
        rw [← he]
        exact List.append_nil _
      rw [he] at h
      exact utf8EncodeChar_split h (utf8Encode_firstByte hb)
    rw [hs, List.nil_append, List.append_assoc] at h
    have hc : some c = some d := by
      rw [← decodeRune_encode c [], List.append_nil, h, decodeRune_encode]
    cases hc
    have hl := congrArg List.length h
    have hp := List.length_pos_of_ne_nil ht
    simp only [List.length_append] at hl
    omega

theorem runes_part (h : String.utf8EncodeChar c = s ++ (u ++ t)) (ht : t ≠ []) :
    runes u = List.replicate u.length runeError := by
  induction u generalizing s with
  | nil => rfl
  | cons b u ih =>
    rw [runes_invalid (decodeRune_part h ht), ih (s := s ++ [b]), List.length_cons,
      List.replicate_succ]
    rw [h, List.append_assoc]
    rfl

theorem utf8Encode_prefix_iff : utf8Encode cs <+: utf8Encode ds ↔ cs <+: ds := by
  constructor
  · rintro ⟨t, ht⟩
    have hr := congrArg runes ht
    rw [runes_utf8Encode_append, runes_utf8Encode] at hr
    exact ⟨runes t, hr⟩
  · rintro ⟨es, rfl⟩
    rw [utf8Encode_append]
    exact List.prefix_append _ _

/-- Where a byte limit falls in a text: the number of bytes before it of the rune that it cuts, and
the text from that rune on. -/
def cutAt : Nat → List Char → Nat × List Char
  | _, [] => (0, [])
  | n, c :: cs => if n < c.utf8Size then (n, c :: cs) else cutAt (n - c.utf8Size) cs

/-- The runes of a text up to a byte limit start the text when U+FFFD does so for every byte of the
rune that the limit cuts. -/
theorem runes_take_prefix_iff (cs : List Char) (n : Nat) :
    runes ((utf8Encode cs).take n) <+: cs ↔
      List.replicate (cutAt n cs).1 runeError <+: (cutAt n cs).2 := by
  induction cs generalizing n with
  | nil =>
    rw [utf8Encode, List.flatMap_nil, List.take_nil]
    rfl
  | cons c cs ih =>
    have hl := String.length_utf8EncodeChar c
    rw [utf8Encode_cons, cutAt]
    split
    · rename_i hn
      have hsplit := (List.take_append_drop n (String.utf8EncodeChar c)).symm
      have hd : (String.utf8EncodeChar c).drop n ≠ [] := by
        intro he
        have hle := List.drop_eq_nil_iff.1 he
        omega
      rw [List.take_append_of_le_length (by omega), runes_part (s := []) hsplit hd,
        List.length_take, hl, Nat.min_eq_left hn.le]
    · rename_i hn
      rw [List.take_append, hl, List.take_of_length_le (by omega), runes_encode,
        List.prefix_cons_inj, ih]

theorem toValidUTF8_take_prefix_iff (hs : ValidUTF8 s) (n : Nat) :
    toValidUTF8 (s.take n) <+: s ↔
      List.replicate (cutAt n (runes s)).1 runeError <+: (cutAt n (runes s)).2 := by
  obtain ⟨cs, rfl⟩ := validUTF8_iff.1 hs
  rw [toValidUTF8, utf8Encode_prefix_iff, runes_utf8Encode, runes_take_prefix_iff]

theorem bind_eq_ok {x : Except ε α} {f : α → Except ε β} (h : x >>= f = .ok b) :
    ∃ a, x = .ok a ∧ f a = .ok b := by
  cases x with
  | error e => cases h
  | ok a => exact ⟨a, rfl, h⟩

theorem map_eq_ok {x : Except ε α} {f : α → β} (h : x.map f = .ok b) :
    ∃ a, x = .ok a ∧ f a = b := by
  cases x with
  | error e => cases h
  | ok a =>
    cases h
    exact ⟨a, rfl, rfl⟩

end HyruleProxy
