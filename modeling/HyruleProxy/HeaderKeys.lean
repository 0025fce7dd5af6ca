import HyruleProxy.Strings

namespace HyruleProxy
set_option autoImplicit true

/-- The bytes of a token. -/
def validHeaderFieldByte (b : UInt8) : Bool :=
  (ch 'a' ≤ b && b ≤ ch 'z') || (ch 'A' ≤ b && b ≤ ch 'Z') || (ch '0' ≤ b && b ≤ ch '9') ||
    b ∈ lit "!#$%&'*+-.^_`|~"

/-- One byte of a canonical key, at the start of a word or inside it. -/
def canonicalByte (upper : Bool) (b : UInt8) : UInt8 :=
  if upper && (ch 'a' ≤ b && b ≤ ch 'z') then b - 32
  else if !upper && (ch 'A' ≤ b && b ≤ ch 'Z') then b + 32
  else b

def canonicalLoop : Bool → GoString → GoString
  | _, [] => []
  | upper, b :: s => canonicalByte upper b :: canonicalLoop (canonicalByte upper b = ch '-') s

/-- The model of `CanonicalMIMEHeaderKey`: a key that is no token stays as it is. -/
def canonicalMIMEHeaderKey (key : GoString) : GoString :=
  if key.all validHeaderFieldByte then canonicalLoop true key else key

/-- The name of a header without regard to ASCII case. -/
def lowerKey (key : GoString) : GoString := key.map asciiLower

theorem validHeaderFieldByte_ascii (h : validHeaderFieldByte b = true) :
    b < 128 ∧ isSpace (Char.ofNat b.toNat) = false := by
  revert b
  decide +kernel

@[simp] theorem validHeaderFieldByte_lower (b : UInt8) :
    validHeaderFieldByte (asciiLower b) = validHeaderFieldByte b := by
  revert b
  decide +kernel

@[simp] theorem asciiLower_canonicalByte (upper : Bool) (b : UInt8) :
    asciiLower (canonicalByte upper b) = asciiLower b := by
  revert upper b
  decide +kernel

@[simp] theorem canonicalByte_asciiLower (upper : Bool) (b : UInt8) :
    canonicalByte upper (asciiLower b) = canonicalByte upper b := by
  revert upper b
  decide +kernel

theorem lowerKey_canonicalLoop (upper : Bool) (s : GoString) :
    lowerKey (canonicalLoop upper s) = lowerKey s := by
  induction s generalizing upper with
  | nil => rfl
  | cons b s ih =>
    rw [canonicalLoop, lowerKey, List.map_cons, asciiLower_canonicalByte]
    exact congrArg (asciiLower b :: ·) (ih _)

theorem canonicalLoop_lowerKey (upper : Bool) (s : GoString) :
    canonicalLoop upper (lowerKey s) = canonicalLoop upper s := by
  induction s generalizing upper with
  | nil => rfl
  | cons b s ih =>
    rw [lowerKey, List.map_cons, canonicalLoop, canonicalByte_asciiLower, canonicalLoop]
    exact congrArg (canonicalByte upper b :: ·) (ih _)

theorem all_valid_lowerKey (s : GoString) :
    (lowerKey s).all validHeaderFieldByte = s.all validHeaderFieldByte := by
  simp [lowerKey, List.all_map, Function.comp_def]

theorem lowerKey_canonical (key : GoString) :
    lowerKey (canonicalMIMEHeaderKey key) = lowerKey key := by
  rw [canonicalMIMEHeaderKey]
  split
  · exact lowerKey_canonicalLoop true key
  · rfl

theorem canonical_eq_iff (hs : s.all validHeaderFieldByte = true)
    (ht : t.all validHeaderFieldByte = true) :
    canonicalMIMEHeaderKey s = canonicalMIMEHeaderKey t ↔ lowerKey s = lowerKey t := by
  constructor
  · intro h
    rw [← lowerKey_canonical s, h, lowerKey_canonical]
  · intro h
    rw [canonicalMIMEHeaderKey, if_pos hs, canonicalMIMEHeaderKey, if_pos ht,
      ← canonicalLoop_lowerKey true s, h, canonicalLoop_lowerKey]

theorem canonical_lowerKey (hs : s.all validHeaderFieldByte = true) :
    canonicalMIMEHeaderKey (lowerKey s) = canonicalMIMEHeaderKey s := by
  rw [canonicalMIMEHeaderKey, all_valid_lowerKey, if_pos hs, canonicalLoop_lowerKey,
    canonicalMIMEHeaderKey, if_pos hs]

section Name

variable (U : Unicode)

/-- The name under which the header policies look a key up. -/
def headerName (key : GoString) : GoString := toLower U (trimSpace key)

theorem toLower_ascii (h : IsASCII s) : toLower U s = lowerKey s := by
  induction s with
  | nil => rfl
  | cons b s ih =>
    rw [toLower_cons U (h b List.mem_cons_self), ih fun c hc => h c (List.mem_cons_of_mem b hc)]
    rfl

theorem runes_ascii (h : IsASCII s) : runes s = s.map fun b => Char.ofNat b.toNat := by
  induction s with
  | nil => rfl
  | cons b s ih =>
    rw [runes_cons (h b List.mem_cons_self), ih fun c hc => h c (List.mem_cons_of_mem b hc)]
    rfl

theorem trimSpace_token (h : s.all validHeaderFieldByte = true) : trimSpace s = s := by
  have hall : ∀ b ∈ s, b < 128 ∧ isSpace (Char.ofNat b.toNat) = false := fun b hb =>
    validHeaderFieldByte_ascii (List.all_eq_true.1 h b hb)
  have hr := runes_ascii fun b hb => (hall b hb).1
  have hs : ∀ c ∈ runes s, ¬ isSpace c = true := by
    intro c hc
    rw [hr] at hc
    obtain ⟨b, hb, rfl⟩ := List.mem_map.1 hc
    rw [(hall b hb).2]
    exact Bool.false_ne_true
  have hd : (runes s).dropWhile isSpace = runes s := by
    cases hc : runes s with
    | nil => rfl
    | cons c cs =>
      rw [List.dropWhile_cons_of_neg]
      exact hs c (by rw [hc]; exact List.mem_cons_self)
  have hv : ValidUTF8 s := IsASCII.validUTF8 fun b hb => (hall b hb).1
  rw [trimSpace, hd, List.rdropWhile_eq_self_iff.2 fun hl => hs _ (List.getLast_mem hl)]
  exact hv

theorem headerName_token (h : s.all validHeaderFieldByte = true) : headerName U s = lowerKey s := by
  rw [headerName, trimSpace_token h]
  exact toLower_ascii U fun b hb => (validHeaderFieldByte_ascii (List.all_eq_true.1 h b hb)).1

end Name

end HyruleProxy
