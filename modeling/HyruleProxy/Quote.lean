import HyruleProxy.Strings

namespace HyruleProxy
set_option autoImplicit true

/-- The last hexadecimal digits of a number, in lower case. -/
def hexText : Nat → Nat → GoString
  | 0, _ => []
  | width + 1, n => hexText width (n / 16) ++ [digitChar (n % 16)]

/-- The letters after the backslash of the control characters that have one. -/
def controlLetter (n : Nat) : Option UInt8 :=
  match n with
  | 7 => some (ch 'a')
  | 8 => some (ch 'b')
  | 9 => some (ch 't')
  | 10 => some (ch 'n')
  | 11 => some (ch 'v')
  | 12 => some (ch 'f')
  | 13 => some (ch 'r')
  | _ => none

section
variable (U : Unicode)

def isPrintRune (c : Char) : Bool :=
  if c.toNat < 128 then 32 ≤ c.toNat && c.toNat < 127 else U.isPrint c

def appendEscapedRune (c : Char) : GoString :=
  if c.toNat = 34 ∨ c.toNat = 92 then 92 :: utf8Encode [c]
  else if isPrintRune U c then utf8Encode [c]
  else
    match controlLetter c.toNat with
    | some b => [92, b]
    | none =>
      if c.toNat < 32 ∨ c.toNat = 127 then 92 :: ch 'x' :: hexText 2 c.toNat
      else if c.toNat < 0x10000 then 92 :: ch 'u' :: hexText 4 c.toNat
      else 92 :: ch 'U' :: hexText 8 c.toNat

def quoteLoop : Nat → GoString → GoString
  | 0, _ => []
  | _ + 1, [] => []
  | n + 1, b :: s =>
    match decodeRune (b :: s) with
    | some c => appendEscapedRune U c ++ quoteLoop n ((b :: s).drop c.utf8Size)
    | none => 92 :: ch 'x' :: hexText 2 b.toNat ++ quoteLoop n s

/-- The model of `strconv.Quote`, which writes invalid bytes as escapes. -/
def quote (s : GoString) : GoString := 34 :: quoteLoop U s.length s ++ [34]

end

theorem isASCII_digitChar (hd : d < 16) : digitChar d < 128 := by
  revert d
  decide

theorem isASCII_hexText (width n : Nat) : IsASCII (hexText width n) := by
  induction width generalizing n with
  | zero => exact .nil
  | succ width ih =>
    exact (ih (n / 16)).append (.cons (isASCII_digitChar (Nat.mod_lt n (by decide))) .nil)

theorem isASCII_controlLetter (h : controlLetter n = some b) : b < 128 := by
  unfold controlLetter at h
  split at h <;> cases h <;> decide

theorem validUTF8_utf8Encode (cs : List Char) : ValidUTF8 (utf8Encode cs) :=
  validUTF8_iff.2 ⟨cs, rfl⟩

theorem validUTF8_cons (hb : b < 128) (hs : ValidUTF8 s) : ValidUTF8 (b :: s) :=
  (IsASCII.cons hb .nil).validUTF8.append hs

theorem validUTF8_appendEscapedRune (U : Unicode) (c : Char) :
    ValidUTF8 (appendEscapedRune U c) := by
  have hex : ∀ b width n, b < 128 → ValidUTF8 (92 :: b :: hexText width n) := by
    intro b width n hb
    exact validUTF8_cons (by decide) (validUTF8_cons hb (isASCII_hexText width n).validUTF8)
  rw [appendEscapedRune]
  split
  · exact validUTF8_cons (by decide) (validUTF8_utf8Encode _)
  · split
    · exact validUTF8_utf8Encode _
    · split
      · rename_i b hb
        exact validUTF8_cons (by decide)
          (IsASCII.cons (isASCII_controlLetter hb) .nil).validUTF8
      · split
        · exact hex _ _ _ (by decide)
        · split
          · exact hex _ _ _ (by decide)
          · exact hex _ _ _ (by decide)

theorem validUTF8_quoteLoop (U : Unicode) (n : Nat) (s : GoString) :
    ValidUTF8 (quoteLoop U n s) := by
  induction n generalizing s with
  | zero => exact IsASCII.nil.validUTF8
  | succ n ih =>
    cases s with
    | nil => exact IsASCII.nil.validUTF8
    | cons b s =>
      rw [quoteLoop]
      split
      · exact (validUTF8_appendEscapedRune U _).append (ih _)
      · apply ValidUTF8.append _ (ih s)
        exact validUTF8_cons (by decide)
          (validUTF8_cons (by decide) (isASCII_hexText 2 _).validUTF8)

theorem validUTF8_quote (U : Unicode) (s : GoString) : ValidUTF8 (quote U s) := by
  apply validUTF8_cons (by decide)
  exact (validUTF8_quoteLoop U _ s).append (IsASCII.cons (by decide) .nil).validUTF8

end HyruleProxy
