import HyruleProxy.NetIPText

namespace HyruleProxy
set_option autoImplicit true

/-- The texts around the first occurrence of a byte, as `strings.Cut` gives them. -/
def cut (b : UInt8) : GoString → Option (GoString × GoString)
  | [] => none
  | c :: s => if c = b then some ([], s) else (cut b s).map fun p => (c :: p.1, p.2)

/-- The texts around the last occurrence of a byte. -/
def cutLast (b : UInt8) : GoString → Option (GoString × GoString)
  | [] => none
  | c :: s =>
    match cutLast b s with
    | some (pre, post) => some (c :: pre, post)
    | none => if c = b then some ([], s) else none

theorem cut_append (h : b ∉ pre) : cut b (pre ++ b :: post) = some (pre, post) := by
  induction pre with
  | nil => rw [List.nil_append, cut, if_pos rfl]
  | cons c pre ih =>
    rw [List.mem_cons, not_or] at h
    rw [List.cons_append, cut, if_neg (fun he => h.1 he.symm), ih h.2]
    rfl

theorem cut_eq_some (h : cut b s = some (pre, post)) : s = pre ++ b :: post ∧ b ∉ pre := by
  induction s generalizing pre with
  | nil => cases h
  | cons c s ih =>
    rw [cut] at h
    split at h
    · rename_i hc
      cases h
      exact ⟨by rw [hc]; rfl, List.not_mem_nil⟩
    · rename_i hc
      obtain ⟨⟨pre', post'⟩, hp, he⟩ := Option.map_eq_some_iff.1 h
      cases he
      obtain ⟨hs, hb⟩ := ih hp
      refine ⟨by rw [hs]; rfl, ?_⟩
      rw [List.mem_cons, not_or]
      exact ⟨fun he => hc he.symm, hb⟩

theorem cutLast_eq_none : cutLast b s = none ↔ b ∉ s := by
  induction s with
  | nil => simp [cutLast]
  | cons c s ih =>
    rw [cutLast, List.mem_cons, not_or]
    split
    · rename_i hs
      have hm : b ∈ s := by
        apply Classical.not_not.1
        intro hn
        rw [ih.2 hn] at hs
        cases hs
      exact ⟨nofun, fun h => absurd hm h.2⟩
    · rename_i hs
      split
      · rename_i hc
        exact ⟨nofun, fun h => absurd hc.symm h.1⟩
      · rename_i hc
        exact ⟨fun _ => ⟨fun he => hc he.symm, ih.1 hs⟩, fun _ => rfl⟩

theorem cutLast_append (h : b ∉ post) : cutLast b (pre ++ b :: post) = some (pre, post) := by
  induction pre with
  | nil => rw [List.nil_append, cutLast, cutLast_eq_none.2 h, if_pos rfl]
  | cons c pre ih => rw [List.cons_append, cutLast, ih]

theorem cutLast_eq_some (h : cutLast b s = some (pre, post)) :
    s = pre ++ b :: post ∧ b ∉ post := by
  induction s generalizing pre with
  | nil => cases h
  | cons c s ih =>
    rw [cutLast] at h
    split at h
    · rename_i hs
      cases h
      obtain ⟨he, hb⟩ := ih hs
      exact ⟨by rw [he]; rfl, hb⟩
    · rename_i hs
      split at h
      · rename_i hc
        cases h
        exact ⟨by rw [hc]; rfl, cutLast_eq_none.1 hs⟩
      · cases h

def hasPrefix (s pre : GoString) : Bool := pre.isPrefixOf s

def hasSuffix (s suffix : GoString) : Bool := suffix.isSuffixOf s

def trimSuffix (s suffix : GoString) : GoString :=
  if hasSuffix s suffix then s.take (s.length - suffix.length) else s

/-- The model of `strings.Trim` for a set of ASCII bytes. -/
def trim (s cutset : GoString) : GoString := (s.dropWhile (· ∈ cutset)).rdropWhile (· ∈ cutset)

theorem trim_of_notMem (h : ∀ b ∈ s, b ∉ cutset) : trim s cutset = s := by
  have hd : s.dropWhile (fun b => decide (b ∈ cutset)) = s := by
    cases s with
    | nil => rfl
    | cons b s =>
      have hb : b ∉ cutset := h b List.mem_cons_self
      rw [List.dropWhile_cons_of_neg (by simp [hb])]
  rw [trim, hd, List.rdropWhile_eq_self_iff]
  intro hs
  simp [h _ (List.getLast_mem hs)]

/-- The Unicode tables behind the case mappings and the quoting of runes outside ASCII. -/
structure Unicode where
  lower : Char → Char
  upper : Char → Char
  fold : Char → Char → Bool
  isPrint : Char → Bool

/-- The tables restricted to ASCII. -/
def asciiTables : Unicode where
  lower c := c
  upper c := c
  fold _ _ := false
  isPrint _ := false

def asciiLower (b : UInt8) : UInt8 := if ch 'A' ≤ b ∧ b ≤ ch 'Z' then b + 32 else b

section
variable (U : Unicode)

def lowerRune (c : Char) : Char := if c.toNat < 128 then c.toLower else U.lower c

def upperRune (c : Char) : Char := if c.toNat < 128 then c.toUpper else U.upper c

/-- Two runes that `unicode.SimpleFold` identifies. -/
def foldEq (c d : Char) : Bool :=
  if c.toNat < 128 ∧ d.toNat < 128 then c.toLower = d.toLower else c = d || U.fold c d

def toLower (s : GoString) : GoString := utf8Encode ((runes s).map (lowerRune U))

def toUpper (s : GoString) : GoString := utf8Encode ((runes s).map (upperRune U))

def foldRunes : List Char → List Char → Bool
  | [], [] => true
  | c :: s, d :: t => foldEq U c d && foldRunes s t
  | _, _ => false

def equalFold (s t : GoString) : Bool := foldRunes U (runes s) (runes t)

end

section
variable (U : Unicode)

theorem lower_ascii (hb : b < 128) : (Char.ofNat b.toNat).toNat < 128 ∧
    String.utf8EncodeChar (Char.ofNat b.toNat).toLower = [asciiLower b] := by
  revert b
  decide +kernel

theorem toLower_cons (hb : b < 128) (s : GoString) :
    toLower U (b :: s) = asciiLower b :: toLower U s := by
  obtain ⟨hn, he⟩ := lower_ascii hb
  rw [toLower, runes_cons hb, List.map_cons, utf8Encode_cons, lowerRune, if_pos hn, he]
  rfl

theorem toLower_snoc (hb : b < 128) (s : GoString) :
    toLower U (s ++ [b]) = toLower U s ++ [asciiLower b] := by
  obtain ⟨hn, he⟩ := lower_ascii hb
  rw [toLower, runes_snoc hb, List.map_append, utf8Encode_append, List.map_singleton,
    utf8Encode_cons, lowerRune, if_pos hn, he]
  rfl

end

/-- The white space of `unicode.IsSpace`. -/
def isSpace (c : Char) : Bool :=
  c.toNat ∈ [9, 10, 11, 12, 13, 32, 0x85, 0xa0, 0x1680, 0x2028, 0x2029, 0x202f, 0x205f, 0x3000] ||
    (0x2000 ≤ c.toNat && c.toNat ≤ 0x200a)

/-- The model of `strings.TrimSpace`, for valid UTF-8. -/
def trimSpace (s : GoString) : GoString :=
  utf8Encode (((runes s).dropWhile isSpace).rdropWhile isSpace)

theorem validUTF8_toUpper (U : Unicode) (s : GoString) : ValidUTF8 (toUpper U s) :=
  validUTF8_iff.2 ⟨_, rfl⟩

end HyruleProxy
